import AffineRelations.Analysis.Run
import AffineRelations.Proofs.FlowGraph.WellFormed

/-!
# What a run writes

A run first computes matrices, then empties generator sets, then offers
vectors. The first phase fills edges, the second gives nodes an empty set, and
the third replaces generator sets by others. Nothing else of the graph changes.
`opened` is the state between the second phase and the third: the edges that
the entry reaches are filled, every node that some procedure reaches has an
empty generator set, and the queue is empty.
-/
namespace AffineRelations

theorem WordRing.ext_width {r r' : WordRing} (h : r.width = r'.width) : r = r' := by
  obtain ⟨w, hpos, hle, m, rfl, t, rfl⟩ := r
  obtain ⟨w', hpos', hle', m', rfl, t', rfl⟩ := r'
  obtain rfl : w = w' := h
  rfl

/-- The edge with its statement's matrices for a ring. -/
def Edge.filled (r : WordRing) (vars : List String) (e : Edge) : Edge :=
  { e with matrices := r.statementMatrices vars e.stmt, width := r.width }

theorem Edge.Fits.filled {vars : List String} {size : ℕ} {e : Edge} (h : e.Fits vars size)
    (r : WordRing) : (e.filled r vars).Fits vars size :=
  ⟨h.target_lt, .inr ⟨r, rfl, rfl⟩⟩

/-- Matrices have to be computed for this width. -/
def Edge.Stale (r : WordRing) (e : Edge) : Prop := e.matrices = [] ∨ e.width ≠ r.width

instance (r : WordRing) (e : Edge) : Decidable (e.Stale r) :=
  inferInstanceAs (Decidable (_ ∨ _))

/-- What an edge keeps for this width is what would be computed. -/
theorem Edge.Fits.filled_eq_self {vars : List String} {size : ℕ} {e : Edge} {r : WordRing}
    (h : e.Fits vars size) (hkept : ¬e.Stale r) : e.filled r vars = e := by
  rw [Stale, not_or, not_not] at hkept
  obtain ⟨r', hw, hms⟩ := h.cached.resolve_left hkept.1
  obtain rfl : r' = r := WordRing.ext_width (by omega)
  rw [Edge.filled, ← hms, ← hkept.2]

theorem FlowGraph.modifyEdge_congr (g : FlowGraph) {k : ℕ} {f f' : Edge → Edge}
    (h : ∀ e, g.edges[k]? = some e → f e = f' e) : g.modifyEdge k f = g.modifyEdge k f' := by
  have hedges : g.edges.modify k f = g.edges.modify k f' := by
    apply Array.ext_getElem?
    intro j
    simp only [Array.getElem?_modify]
    split_ifs with hkj
    · subst hkj
      exact Option.map_congr h
    · rfl
  rw [modifyEdge, hedges, modifyEdge]

theorem FlowGraph.modifyEdge_eq_self (g : FlowGraph) {k : ℕ} {f : Edge → Edge}
    (h : ∀ e, g.edges[k]? = some e → f e = e) : g.modifyEdge k f = g := by
  have hedges : g.edges.modify k id = g.edges := by
    apply Array.ext_getElem?
    intro j
    simp [Array.getElem?_modify]
  rw [g.modifyEdge_congr h, modifyEdge]
  exact congrArg (fun edges => { g with edges := edges }) hedges

namespace Progress

section Materialize
variable {r : WordRing} {p : Progress}

/-- What looking at an edge can do to any state. -/
theorem materialize_cases (r : WordRing) (p : Progress) (k : ℕ) :
    p.materialize r k = p ∨ (∃ e, p.materialize r k = p.fail e) ∨
      ∃ e, p.graph.edges[k]? = some e ∧
        p.materialize r k = { p with
          graph := p.graph.modifyEdge k fun _ => e.filled r p.graph.vars
          stats := { p.stats with edges := p.stats.edges + 1 }
          events := p.events.push (.matrices (e.filled r p.graph.vars) (p.graph.edgeName e)) } := by
  unfold materialize
  split_ifs
  · exact .inl rfl
  · cases he : p.graph.edges[k]? with
    | none => exact .inr (.inl ⟨_, rfl⟩)
    | some e =>
        dsimp only
        split_ifs
        · exact .inr (.inr ⟨e, rfl, rfl⟩)
        · exact .inl rfl

section Going
variable (hfail : p.failure = none) {k : ℕ} {e : Edge} (he : p.graph.edges[k]? = some e)

include hfail he

theorem materialize_of_stale (hstale : e.Stale r) :
    p.materialize r k = { p with
      graph := p.graph.modifyEdge k fun _ => e.filled r p.graph.vars
      stats := { p.stats with edges := p.stats.edges + 1 }
      events := p.events.push (.matrices (e.filled r p.graph.vars) (p.graph.edgeName e)) } := by
  rw [materialize, if_neg (by simp [hfail]), he]
  dsimp only
  rw [if_pos (by simpa [Edge.Stale] using hstale)]
  rfl

theorem materialize_of_not_stale (hfresh : ¬e.Stale r) : p.materialize r k = p := by
  rw [materialize, if_neg (by simp [hfail]), he]
  dsimp only
  rw [if_neg (by simpa [Edge.Stale] using hfresh)]

theorem materialize_frame :
    (p.materialize r k).queue = p.queue ∧ (p.materialize r k).failure = none ∧
      (p.materialize r k).stats.nodes = p.stats.nodes := by
  by_cases hstale : e.Stale r
  · rw [materialize_of_stale hfail he hstale]
    exact ⟨rfl, hfail, rfl⟩
  · rw [materialize_of_not_stale hfail he hstale]
    exact ⟨rfl, hfail, rfl⟩

theorem materialize_graph {size : ℕ} (hfits : e.Fits p.graph.vars size) :
    (p.materialize r k).graph = p.graph.modifyEdge k (Edge.filled r p.graph.vars) := by
  by_cases hstale : e.Stale r
  · rw [materialize_of_stale hfail he hstale]
    refine p.graph.modifyEdge_congr fun e' he' => ?_
    rw [Option.some.inj (he.symm.trans he')]
  · -- nothing is written, since what is there is what would be computed
    rw [materialize_of_not_stale hfail he hstale]
    refine (p.graph.modifyEdge_eq_self fun e' he' => ?_).symm
    obtain rfl := Option.some.inj (he.symm.trans he')
    exact hfits.filled_eq_self hstale

end Going

/-- The first phase fills edges and changes nothing else. -/
theorem foldl_materialize {r : WordRing} {size : ℕ} {ks : List ℕ} {p : Progress}
    (hfail : p.failure = none) (hks : ∀ k ∈ ks, k < p.graph.edges.size)
    (h : ∀ (k : ℕ) (e : Edge), p.graph.edges[k]? = some e → e.Fits p.graph.vars size) :
    (ks.foldl (materialize r) p).graph.skeleton = p.graph.skeleton ∧
      (ks.foldl (materialize r) p).graph.nodes = p.graph.nodes ∧
      (∀ k, (ks.foldl (materialize r) p).graph.edges[k]? =
        if k ∈ ks then p.graph.edges[k]?.map (Edge.filled r p.graph.vars)
          else p.graph.edges[k]?) ∧
      (ks.foldl (materialize r) p).queue = p.queue ∧
      (ks.foldl (materialize r) p).failure = none ∧
      (ks.foldl (materialize r) p).stats.nodes = p.stats.nodes := by
  induction ks generalizing p with
  | nil => simp [hfail]
  | cons j ks ih =>
      have hj := Array.getElem?_eq_getElem (hks j List.mem_cons_self)
      have hgraph : (p.materialize r j).graph =
          p.graph.modifyEdge j (Edge.filled r p.graph.vars) :=
        materialize_graph hfail hj (h j _ hj)
      obtain ⟨hqueue₁, hfail₁, hcount₁⟩ := materialize_frame (r := r) hfail hj
      have hedges (k : ℕ) : (p.materialize r j).graph.edges[k]? =
          if j = k then p.graph.edges[k]?.map (Edge.filled r p.graph.vars)
            else p.graph.edges[k]? := by
        rw [hgraph, FlowGraph.modifyEdge, Array.getElem?_modify]
      have hvars : (p.materialize r j).graph.vars = p.graph.vars := by rw [hgraph]; rfl
      have hks' : ∀ k ∈ ks, k < (p.materialize r j).graph.edges.size := by
        intro k hk
        rw [hgraph, FlowGraph.modifyEdge, Array.size_modify]
        exact hks k (List.mem_cons_of_mem j hk)
      have hfits (k : ℕ) (e : Edge) (he : (p.materialize r j).graph.edges[k]? = some e) :
          e.Fits (p.materialize r j).graph.vars size := by
        rw [hedges k] at he
        rw [hvars]
        split_ifs at he with hjk
        · obtain ⟨e', he', rfl⟩ := Option.map_eq_some_iff.mp he
          exact (h k e' he').filled r
        · exact h k e he
      obtain ⟨hskel, hnodes, hget, hqueue, hfailure, hcount⟩ := ih hfail₁ hks' hfits
      refine ⟨?_, ?_, ?_, hqueue.trans hqueue₁, hfailure, hcount.trans hcount₁⟩
      · rw [List.foldl_cons, hskel, hgraph]
        exact p.graph.skeleton_modifyEdge j fun _ _ => rfl
      · rw [List.foldl_cons, hnodes, hgraph]
        rfl
      · intro k
        rw [List.foldl_cons, hget k, hedges k, hvars]
        by_cases hjk : j = k
        · -- an edge that occurs again is filled with the same matrices
          subst hjk
          cases p.graph.edges[j]? <;> simp [Edge.filled]
        · simp [hjk, Ne.symm hjk]

end Materialize

section Clear
variable {r : WordRing} {p : Progress}

/-- What emptying a generator set can do to any state. -/
theorem clear_cases (r : WordRing) (dim : ℕ) (p : Progress) (i : ℕ) :
    p.clear r dim i = p ∨ (∃ e, p.clear r dim i = p.fail e) ∨
      p.clear r dim i = { p with
        graph := p.graph.modifyNode i fun n => { n with generators := some (.empty r dim) }
        stats := { p.stats with nodes := p.stats.nodes + 1 } } := by
  unfold clear
  split_ifs
  · exact .inl rfl
  · cases p.graph.nodes[i]? with
    | none => exact .inr (.inl ⟨_, rfl⟩)
    | some n => exact .inr (.inr rfl)

theorem clear_of_lt (dim : ℕ) (hfail : p.failure = none) {i : ℕ} (hi : i < p.graph.nodes.size) :
    p.clear r dim i = { p with
      graph := p.graph.modifyNode i fun n => { n with generators := some (.empty r dim) }
      stats := { p.stats with nodes := p.stats.nodes + 1 } } := by
  rw [clear, if_neg (by simp [hfail]), Array.getElem?_eq_getElem hi]

/-- The second phase empties generator sets and changes nothing else. -/
theorem foldl_clear (dim : ℕ) {is : List ℕ} (hfail : p.failure = none)
    (his : ∀ i ∈ is, i < p.graph.nodes.size) :
    (is.foldl (clear r dim) p).graph.skeleton = p.graph.skeleton ∧
      (∀ j, (is.foldl (clear r dim) p).graph.outEdges j = p.graph.outEdges j) ∧
      (is.foldl (clear r dim) p).graph.edges = p.graph.edges ∧
      (∀ j, (is.foldl (clear r dim) p).graph.generatorsAt j =
        if j ∈ is then some (.empty r dim) else p.graph.generatorsAt j) ∧
      (is.foldl (clear r dim) p).queue = p.queue ∧
      (is.foldl (clear r dim) p).failure = none ∧
      (is.foldl (clear r dim) p).stats.nodes = p.stats.nodes + is.length := by
  induction is generalizing p with
  | nil => simp [hfail]
  | cons i is ih =>
      have hi := his i List.mem_cons_self
      have hstep := clear_of_lt (r := r) dim hfail hi
      have hsize : (p.clear r dim i).graph.nodes.size = p.graph.nodes.size := by
        simp [hstep, FlowGraph.modifyNode]
      obtain ⟨hskel, hout, hedges, hgen, hqueue, hfailure, hcount⟩ :=
        ih (p := p.clear r dim i) (by rw [hstep, hfail])
          fun j hj => hsize ▸ his j (List.mem_cons_of_mem i hj)
      rw [List.foldl_cons]
      refine ⟨?_, ?_, ?_, ?_, ?_, hfailure, ?_⟩
      · rw [hskel, hstep]
        exact p.graph.skeleton_modifyNode i fun _ => rfl
      · intro j
        rw [hout j, hstep]
        exact p.graph.outEdges_modifyNode i j fun _ => rfl
      · rw [hedges, hstep]
        rfl
      · intro j
        have hone : (p.clear r dim i).graph.generatorsAt j =
            if i = j then p.graph.nodes[j]?.bind fun _ => some (.empty r dim)
              else p.graph.generatorsAt j := by
          rw [hstep]
          exact p.graph.generatorsAt_modifyNode i j _
        rw [hgen j, hone]
        by_cases hij : i = j
        · subst hij
          simp [hi]
        · simp [hij, Ne.symm hij]
      · rw [hqueue, hstep]
      · rw [hcount, hstep, List.length_cons]
        dsimp only
        omega

end Clear

end Progress

namespace FlowGraph

/-- The second graph is the first one with other generator sets in the same
nodes. -/
structure Regenerates (g g' : FlowGraph) : Prop where
  skeleton_eq : g'.skeleton = g.skeleton
  edges_eq : g'.edges = g.edges
  outEdges_eq : ∀ i, g'.outEdges i = g.outEdges i
  isSome_eq : ∀ i, (g'.generatorsAt i).isSome = (g.generatorsAt i).isSome

theorem Regenerates.refl (g : FlowGraph) : g.Regenerates g :=
  ⟨rfl, rfl, fun _ => rfl, fun _ => rfl⟩

theorem Regenerates.trans {g₁ g₂ g₃ : FlowGraph} (h : g₁.Regenerates g₂)
    (h' : g₂.Regenerates g₃) : g₁.Regenerates g₃ where
  skeleton_eq := h'.skeleton_eq.trans h.skeleton_eq
  edges_eq := h'.edges_eq.trans h.edges_eq
  outEdges_eq := fun i => (h'.outEdges_eq i).trans (h.outEdges_eq i)
  isSome_eq := fun i => (h'.isSome_eq i).trans (h.isSome_eq i)

theorem regenerates_modifyNode {g : FlowGraph} {i : ℕ} {s : GeneratorSet}
    (h : g.generatorsAt i = some s) (s' : GeneratorSet) :
    g.Regenerates (g.modifyNode i fun n => { n with generators := some s' }) where
  skeleton_eq := g.skeleton_modifyNode i fun _ => rfl
  edges_eq := rfl
  outEdges_eq := fun j => g.outEdges_modifyNode i j fun _ => rfl
  isSome_eq := by
    intro j
    rw [generatorsAt_modifyNode]
    split_ifs with hij
    · subst hij
      obtain ⟨n, hn, -⟩ := Option.bind_eq_some_iff.mp h
      simp [hn, h]
    · rfl

end FlowGraph

namespace Analyzer

/-- The state when the first phase is over. -/
def computed (a : Analyzer) (g : FlowGraph) (entry : ℕ) : Progress :=
  (Progress.leaving g (g.reach entry)).foldl (Progress.materialize a.ring) (.start g)

/-- The state when matrices have been computed and generator sets emptied. -/
def opened (a : Analyzer) (g : FlowGraph) (entry : ℕ) : Progress :=
  (g.reachAny g.entries).foldl (Progress.clear a.ring (a.vars + 1)) (a.computed g entry)

theorem prepare_eq (a : Analyzer) (g : FlowGraph) (entry : ℕ) :
    a.prepare g entry = (List.range (a.vars + 1)).foldl
      (fun p i => p.offer entry (WordVec.unit (a.vars + 1) i)) (a.opened g entry) := rfl

/-- The first phase goes through all edges that the entry reaches. -/
theorem materialized (a : Analyzer) {g : FlowGraph} (hg : g.WellFormed) (entry : ℕ) :
    (a.computed g entry).graph.skeleton = g.skeleton ∧
      (a.computed g entry).graph.nodes = g.nodes ∧
      (∀ k, (a.computed g entry).graph.edges[k]? =
        if k ∈ Progress.leaving g (g.reach entry) then g.edges[k]?.map (Edge.filled a.ring g.vars)
          else g.edges[k]?) ∧
      (a.computed g entry).queue = [] ∧ (a.computed g entry).failure = none ∧
      (a.computed g entry).stats.nodes = 0 := by
  refine Progress.foldl_materialize (p := .start g) rfl ?_ hg.edge_fits
  intro k hk
  obtain ⟨i, -, hk⟩ := List.mem_flatMap.mp hk
  cases hn : g.nodes[i]? with
  | none => simp [hn] at hk
  | some n => exact hg.out_lt i n hn k (by simpa [hn] using hk)

/-- What is known of a graph when its generator sets have been emptied. -/
structure Opened (a : Analyzer) (g : FlowGraph) (entry : ℕ) (p : Progress) : Prop where
  skeleton_eq : p.graph.skeleton = g.skeleton
  edge_fits : ∀ (k : ℕ) (e : Edge), p.graph.edges[k]? = some e → e.Fits g.vars g.nodes.size
  outEdges_eq : ∀ i, g.Reaches entry i →
    p.graph.outEdges i = (g.outEdges i).map (Edge.filled a.ring g.vars)
  generatorsAt_eq : ∀ name j i, g.entry name = .ok j → g.Reaches j i →
    p.graph.generatorsAt i = some (.empty a.ring (a.vars + 1))
  generated : ∀ i s, p.graph.generatorsAt i = some s →
    ∃ name j, g.entry name = .ok j ∧ g.Reaches j i
  queue_eq : p.queue = []
  failure_eq : p.failure = none
  /-- Each node that some procedure reaches has been counted once. -/
  nodes_stat : p.stats.nodes = (g.reachAny g.entries).length

theorem opened_spec (a : Analyzer) {g : FlowGraph} (hg : g.WellFormed) {name : String}
    {entry : ℕ} (hentry : g.entry name = .ok entry) : a.Opened g entry (a.opened g entry) := by
  obtain ⟨hskel₁, hnodes₁, hedges₁, hqueue₁, hfailure₁, hcount₁⟩ := a.materialized hg entry
  have hlt (i : ℕ) (hi : i ∈ g.reachAny g.entries) :
      i < (a.computed g entry).graph.nodes.size := by
    rw [hnodes₁]
    exact hg.lt_of_mem_reachAny hi
  obtain ⟨hskel₂, hout₂, hedges₂, hgen₂, hqueue₂, hfailure₂, hcount₂⟩ :=
    Progress.foldl_clear (r := a.ring) (a.vars + 1) hfailure₁ hlt
  rw [← opened] at hskel₂ hout₂ hedges₂ hgen₂ hqueue₂ hfailure₂ hcount₂
  constructor
  case skeleton_eq => exact hskel₂.trans hskel₁
  case edge_fits =>
    intro k e he
    rw [hedges₂, hedges₁ k] at he
    split_ifs at he with hk
    · obtain ⟨e', he', rfl⟩ := Option.map_eq_some_iff.mp he
      exact (hg.edge_fits k e' he').filled a.ring
    · exact hg.edge_fits k e he
  case outEdges_eq =>
    intro i hi
    have hmem : i ∈ g.reach entry :=
      (FlowGraph.mem_reach hg.bounded (hg.entry_lt name entry hentry)).mpr hi
    rw [hout₂, FlowGraph.outEdges, hnodes₁, FlowGraph.outEdges]
    cases hn : g.nodes[i]? with
    | none => rfl
    | some n =>
        rw [List.map_filterMap]
        apply List.filterMap_congr
        intro k hk
        have hleaving : k ∈ Progress.leaving g (g.reach entry) :=
          List.mem_flatMap.mpr ⟨i, hmem, by simpa [hn] using hk⟩
        rw [hedges₁ k, if_pos hleaving]
  case generatorsAt_eq =>
    intro p j i hp hji
    rw [hgen₂, if_pos (hg.mem_reachAny_entries.mpr ⟨p, j, hp, hji⟩)]
  case generated =>
    intro i s hs
    rw [hgen₂] at hs
    split_ifs at hs with hi
    · exact hg.mem_reachAny_entries.mp hi
    · rw [FlowGraph.generatorsAt, hnodes₁] at hs
      exact hg.generated i s hs
  case queue_eq => exact hqueue₂.trans hqueue₁
  case failure_eq => exact hfailure₂
  case nodes_stat => rw [hcount₂, hcount₁, Nat.zero_add]

theorem Opened.mem_reach {a : Analyzer} {g : FlowGraph} {name : String} {entry i : ℕ}
    {p : Progress} (h : a.Opened g entry p) (hg : g.WellFormed)
    (hentry : g.entry name = .ok entry) (hi : p.graph.Reaches entry i) : i ∈ g.reach entry := by
  rw [FlowGraph.reaches_congr h.skeleton_eq] at hi
  exact (FlowGraph.mem_reach hg.bounded (hg.entry_lt name entry hentry)).mpr hi

end Analyzer

end AffineRelations
