import AffineRelations.Proofs.FlowGraph.Growth
import AffineRelations.Proofs.FlowGraph.Search
import AffineRelations.Transition

/-!
# Graphs that are built step by step

What every graph has that is made from variables by adding nodes, edges and
procedures: edges end at nodes, procedures start at nodes, an edge keeps no
matrices or those of its statement for some width, and only nodes that some
procedure reaches keep generator sets. What a node names as its edges is there.
-/
namespace AffineRelations

structure Edge.Fits (vars : List String) (size : ℕ) (e : Edge) : Prop where
  target_lt : e.target < size
  cached : e.matrices = [] ∨
    ∃ r : WordRing, e.width = r.width ∧ e.matrices = r.statementMatrices vars e.stmt

theorem Edge.Fits.mono {vars : List String} {size size' : ℕ} {e : Edge}
    (h : e.Fits vars size) (hle : size ≤ size') : e.Fits vars size' :=
  ⟨Nat.lt_of_lt_of_le h.target_lt hle, h.cached⟩

namespace FlowGraph

structure WellFormed (g : FlowGraph) : Prop where
  vars_nodup : g.vars.Nodup
  edge_fits : ∀ (k : ℕ) (e : Edge), g.edges[k]? = some e → e.Fits g.vars g.nodes.size
  out_lt : ∀ (i : ℕ) (n : Node), g.nodes[i]? = some n → ∀ k ∈ n.out, k < g.edges.size
  entry_lt : ∀ p i, g.entry p = .ok i → i < g.nodes.size
  /-- Generator sets are kept only where a procedure leads. -/
  generated : ∀ i s, g.generatorsAt i = some s → ∃ p j, g.entry p = .ok j ∧ g.Reaches j i

theorem mem_outEdges {g : FlowGraph} {i : ℕ} {e : Edge} :
    e ∈ g.outEdges i ↔ ∃ n, g.nodes[i]? = some n ∧ ∃ k ∈ n.out, g.edges[k]? = some e := by
  rw [outEdges]
  cases g.nodes[i]? <;> simp

theorem WellFormed.bounded {g : FlowGraph} (h : g.WellFormed) : g.Bounded := by
  intro i j hj
  obtain ⟨e, he, rfl⟩ := List.mem_map.mp hj
  obtain ⟨-, -, k, -, hk⟩ := mem_outEdges.mp he
  exact (h.edge_fits k e hk).target_lt

theorem WellFormed.reaches_lt {g : FlowGraph} (h : g.WellFormed) {p : String} {i j : ℕ}
    (hp : g.entry p = .ok i) (hij : g.Reaches i j) : j < g.nodes.size := by
  rcases Relation.ReflTransGen.cases_tail hij with rfl | ⟨k, -, hk⟩
  · exact h.entry_lt p j hp
  · exact h.bounded k j hk

theorem WellFormed.entries_lt {g : FlowGraph} (h : g.WellFormed) :
    ∀ s ∈ g.entries, s < g.nodes.size := by
  intro s hs
  obtain ⟨p, hp⟩ := mem_entries.mp hs
  exact h.entry_lt p s hp

theorem WellFormed.mem_reachAny_entries {g : FlowGraph} (h : g.WellFormed) {i : ℕ} :
    i ∈ g.reachAny g.entries ↔ ∃ p j, g.entry p = .ok j ∧ g.Reaches j i := by
  rw [mem_reachAny h.bounded h.entries_lt]
  constructor
  · rintro ⟨s, hs, hsi⟩
    obtain ⟨p, hp⟩ := mem_entries.mp hs
    exact ⟨p, s, hp, hsi⟩
  · rintro ⟨p, j, hp, hji⟩
    exact ⟨j, mem_entries.mpr ⟨p, hp⟩, hji⟩

theorem WellFormed.lt_of_mem_reachAny {g : FlowGraph} (h : g.WellFormed) {i : ℕ}
    (hi : i ∈ g.reachAny g.entries) : i < g.nodes.size := by
  obtain ⟨p, j, hp, hj⟩ := h.mem_reachAny_entries.mp hi
  exact h.reaches_lt hp hj

theorem checkVars_eq_none_iff {known vars : List String} :
    checkVars known vars = none ↔ vars.Nodup ∧ "" ∉ vars ∧ ∀ x ∈ vars, x ∉ known := by
  induction vars generalizing known with
  | nil => simp [checkVars]
  | cons x vars ih =>
      rw [checkVars]
      split_ifs with hempty hknown
      · simp [hempty]
      · have hx : x ∈ known := by simpa using hknown
        simp [hx]
      · have hx : x ∉ known := by simpa using hknown
        simp only [ih, List.nodup_cons, List.mem_cons, forall_eq_or_imp, not_or]
        constructor
        · rintro ⟨hnodup, hne, hnew⟩
          exact ⟨⟨fun hmem => (hnew x hmem).1 rfl, hnodup⟩, ⟨Ne.symm hempty, hne⟩, hx,
            fun y hy => (hnew y hy).2⟩
        · rintro ⟨⟨hxs, hnodup⟩, ⟨-, hne⟩, -, hnew⟩
          exact ⟨hnodup, hne, fun y hy => ⟨fun h => hxs (h ▸ hy), hnew y hy⟩⟩

theorem ofVars_eq_ok_iff {vars : List String} {g : FlowGraph} :
    ofVars vars = .ok g ↔ (vars.Nodup ∧ "" ∉ vars) ∧ g = ⟨vars, #[], #[], []⟩ := by
  have hcheck : checkVars [] vars = none ↔ vars.Nodup ∧ "" ∉ vars := by
    simp [checkVars_eq_none_iff]
  rw [← hcheck, ofVars]
  cases checkVars [] vars with
  | some e => simp
  | none => simp [eq_comm]

theorem wellFormed_ofVars {vars : List String} {g : FlowGraph} (h : ofVars vars = .ok g) :
    g.WellFormed := by
  obtain ⟨⟨hnodup, -⟩, rfl⟩ := ofVars_eq_ok_iff.mp h
  exact ⟨hnodup, by simp, by simp, by simp [entry], by simp [generatorsAt]⟩

/-- Adding to a graph keeps its edges, its entries and what is reachable. -/
theorem reaches_of_outEdges_subset {g g' : FlowGraph}
    (h : ∀ i, ∀ e ∈ g.outEdges i, e ∈ g'.outEdges i) {i j : ℕ} (hij : g.Reaches i j) :
    g'.Reaches i j := by
  induction hij with
  | refl => exact .refl
  | tail _ hstep ih =>
      obtain ⟨e, he, rfl⟩ := List.mem_map.mp hstep
      exact ih.tail (List.mem_map.mpr ⟨e, h _ e he, rfl⟩)

theorem WellFormed.pushNode {g : FlowGraph} (h : g.WellFormed) (id : String) :
    (g.pushNode id).WellFormed where
  vars_nodup := h.vars_nodup
  edge_fits := by
    intro k e hk
    exact (h.edge_fits k e hk).mono (by simp [FlowGraph.pushNode])
  out_lt := by
    intro i n hn
    simp only [FlowGraph.pushNode, Array.getElem?_push] at hn ⊢
    split_ifs at hn with hi
    · obtain rfl := Option.some.inj hn
      simp
    · exact h.out_lt i n hn
  entry_lt := by
    intro p i hp
    have hlt := h.entry_lt p i hp
    simp only [FlowGraph.pushNode, Array.size_push]
    omega
  generated := by
    intro i s hs
    have hold : g.generatorsAt i = some s := by
      simp only [generatorsAt, FlowGraph.pushNode, Array.getElem?_push] at hs ⊢
      split_ifs at hs with hi
      · simp at hs
      · exact hs
    obtain ⟨p, j, hp, hj⟩ := h.generated i s hold
    refine ⟨p, j, hp, reaches_of_outEdges_subset ?_ hj⟩
    intro l e he
    obtain ⟨n, hn, k, hk, hek⟩ := mem_outEdges.mp he
    have hl : l < g.nodes.size := (Array.getElem?_eq_some_iff.mp hn).1
    refine mem_outEdges.mpr ⟨n, ?_, k, hk, hek⟩
    simp only [FlowGraph.pushNode, Array.getElem?_push]
    rwa [if_neg (Nat.ne_of_lt hl)]

theorem WellFormed.connect {g : FlowGraph} (h : g.WellFormed) (i : ℕ) {j : ℕ}
    (hj : j < g.nodes.size) (stmt : Option Expr) : (g.connect i j stmt).WellFormed where
  vars_nodup := h.vars_nodup
  edge_fits := by
    intro k e hk
    simp only [FlowGraph.connect, Array.getElem?_push, Array.size_modify] at hk ⊢
    split_ifs at hk with hsize
    · obtain rfl := Option.some.inj hk
      exact ⟨hj, .inl rfl⟩
    · exact h.edge_fits k e hk
  out_lt := by
    intro l n hn k hk
    simp only [FlowGraph.connect, Array.getElem?_modify, Array.size_push] at hn ⊢
    split_ifs at hn with hil
    · obtain ⟨n₀, hn₀, rfl⟩ := Option.map_eq_some_iff.mp hn
      rcases List.mem_append.mp hk with hold | hnew
      · exact Nat.lt_succ_of_lt (h.out_lt l n₀ hn₀ k hold)
      · rw [List.mem_singleton.mp hnew]
        exact Nat.lt_succ_self _
    · exact Nat.lt_succ_of_lt (h.out_lt l n hn k hk)
  entry_lt := by
    intro p l hp
    simpa [FlowGraph.connect] using h.entry_lt p l hp
  generated := by
    intro l s hs
    have hold : g.generatorsAt l = some s := by
      simp only [generatorsAt, FlowGraph.connect, Array.getElem?_modify] at hs ⊢
      split_ifs at hs with hil
      · simpa [Option.bind_map, Function.comp_def] using hs
      · exact hs
    obtain ⟨p, m, hp, hm⟩ := h.generated l s hold
    refine ⟨p, m, hp, reaches_of_outEdges_subset ?_ hm⟩
    intro a e he
    obtain ⟨n, hn, k, hk, hek⟩ := mem_outEdges.mp he
    have hlt : k < g.edges.size := (Array.getElem?_eq_some_iff.mp hek).1
    have hedge : (g.connect i j stmt).edges[k]? = some e := by
      simp only [FlowGraph.connect, Array.getElem?_push]
      rwa [if_neg (Nat.ne_of_lt hlt)]
    by_cases hia : i = a
    · refine mem_outEdges.mpr ⟨{ n with out := n.out ++ [g.edges.size] }, ?_, k, ?_, hedge⟩
      · simp [FlowGraph.connect, Array.getElem?_modify, hia, hn]
      · exact List.mem_append_left _ hk
    · refine mem_outEdges.mpr ⟨n, ?_, k, hk, hedge⟩
      simp [FlowGraph.connect, Array.getElem?_modify, hia, hn]

theorem WellFormed.register {g : FlowGraph} (h : g.WellFormed) (name : String) {i : ℕ}
    (hi : i < g.nodes.size) :
    WellFormed { g with procedures := g.procedures ++ [(name, i)] } where
  vars_nodup := h.vars_nodup
  edge_fits := h.edge_fits
  out_lt := h.out_lt
  entry_lt := by
    intro p j hp
    simp only [entry, List.find?_append] at hp
    cases hfind : g.procedures.find? fun q => q.1 == p with
    | some q => exact h.entry_lt p j (by simpa [entry, hfind] using hp)
    | none =>
        by_cases hname : name = p
        · obtain rfl : i = j := by simpa [hfind, hname] using hp
          exact hi
        · simp [hfind, hname] at hp
  generated := by
    intro j s hs
    obtain ⟨p, l, hp, hl⟩ := h.generated j s hs
    refine ⟨p, l, ?_, hl⟩
    simp only [entry, List.find?_append] at hp ⊢
    cases hfind : g.procedures.find? fun q => q.1 == p with
    | some q => simpa [hfind] using hp
    | none => simp [hfind] at hp

theorem WellFormed.grows {g g' : FlowGraph} (h : g.WellFormed) (hstep : Grows g g') :
    g'.WellFormed := by
  cases hstep with
  | node => exact h.pushNode _
  | edge stmt _ hj => exact h.connect _ hj stmt
  | procedure _ hi => exact h.register _ hi

theorem WellFormed.addNode {g : FlowGraph} (h : g.WellFormed) (id : String) :
    (g.addNode id).1.WellFormed :=
  (g.growsTo_addNode id).preserves WellFormed.grows h

theorem WellFormed.addEdge {g : FlowGraph} (h : g.WellFormed) (source target : String)
    (stmt : Option Expr) : (g.addEdge source target stmt).1.WellFormed :=
  (g.growsTo_addEdge source target stmt).preserves WellFormed.grows h

theorem WellFormed.addProcedure {g : FlowGraph} (h : g.WellFormed) (name start : String) :
    (g.addProcedure name start).1.WellFormed :=
  (g.growsTo_addProcedure name start).preserves WellFormed.grows h

end FlowGraph

end AffineRelations
