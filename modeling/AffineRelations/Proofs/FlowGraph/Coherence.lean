import AffineRelations.Proofs.Analysis.History

/-!
# Coherent flow graphs

A graph says where its edges leave twice: each edge names its source, and each
node lists the edges that leave it. It also finds nodes by name, edges by
number and variables by column. `Coherent` says that all this agrees. A graph
without nodes is coherent, the three steps by which graphs grow keep it so, and
analyses do not touch what it speaks about. So it holds after every sequence of
additions and analyses, whether they succeed or fail.
-/
namespace AffineRelations

namespace FlowGraph

/-- The positions of the edges that leave a node, oldest first. -/
def leaving (g : FlowGraph) (i : ℕ) : List ℕ :=
  (List.range g.edges.size).filter fun k => g.edges[k]?.map (·.source) == some i

structure Coherent (g : FlowGraph) : Prop where
  ids_nodup : (g.nodes.map (·.id)).toList.Nodup
  ids_ne_empty : "" ∉ g.nodes.map (·.id)
  edge_id : ∀ (k : ℕ) (e : Edge), g.edges[k]? = some e → e.id = "e" ++ toString k
  edge_ends : ∀ (k : ℕ) (e : Edge), g.edges[k]? = some e →
    e.source < g.nodes.size ∧ e.target < g.nodes.size
  out_eq : ∀ (i : ℕ) (n : Node), g.nodes[i]? = some n → n.out = g.leaving i
  entry_lt : ∀ p ∈ g.procedures, p.2 < g.nodes.size
  names_nodup : (g.procedures.map (·.1)).Nodup

theorem coherent_ofVars {vars : List String} {g : FlowGraph} (h : ofVars vars = .ok g) :
    g.Coherent := by
  obtain ⟨-, rfl⟩ := ofVars_eq_ok_iff.mp h
  constructor <;> simp

theorem leaving_of_size_le {g : FlowGraph} (h : g.Coherent) {i : ℕ} (hi : g.nodes.size ≤ i) :
    g.leaving i = [] := by
  rw [leaving, List.filter_eq_nil_iff]
  intro k _ hk
  obtain ⟨e, he, rfl⟩ := Option.map_eq_some_iff.mp (eq_of_beq hk)
  have hlt := (h.edge_ends k e he).1
  omega

theorem find?_eq_none_iff {g : FlowGraph} {id : String} :
    g.find? id = none ↔ id ∉ g.nodes.map (·.id) := by
  simp [find?]

theorem Coherent.pushNode {g : FlowGraph} (h : g.Coherent) {id : String} (hid : id ≠ "")
    (hnew : g.find? id = none) : (g.pushNode id).Coherent where
  ids_nodup := by
    have hfresh := find?_eq_none_iff.mp hnew
    simp only [FlowGraph.pushNode, Array.map_push, Array.toList_push]
    rw [List.nodup_append]
    refine ⟨h.ids_nodup, List.nodup_singleton _, ?_⟩
    rintro x hx y hy rfl
    rw [List.mem_singleton.mp hy] at hx
    exact hfresh (Array.mem_toList_iff.mp hx)
  ids_ne_empty := by
    simp only [FlowGraph.pushNode, Array.map_push, Array.mem_push]
    rintro (hmem | hmem)
    · exact h.ids_ne_empty hmem
    · exact hid hmem.symm
  edge_id := h.edge_id
  edge_ends := by
    intro k e hk
    have hlt := h.edge_ends k e hk
    simp only [FlowGraph.pushNode, Array.size_push]
    omega
  out_eq := by
    intro i n hn
    simp only [FlowGraph.pushNode, Array.getElem?_push] at hn
    split_ifs at hn with hi
    · obtain rfl := Option.some.inj hn
      exact (leaving_of_size_le h hi.ge).symm
    · exact h.out_eq i n hn
  entry_lt := by
    intro p hp
    have hlt := h.entry_lt p hp
    simp only [FlowGraph.pushNode, Array.size_push]
    omega
  names_nodup := h.names_nodup

/-- A new edge is the last of those that leave its source. -/
theorem leaving_connect (g : FlowGraph) (i j : ℕ) (stmt : Option Expr) (l : ℕ) :
    (g.connect i j stmt).leaving l =
      g.leaving l ++ if i = l then [g.edges.size] else [] := by
  have hold (k : ℕ) (hk : k ∈ List.range g.edges.size) :
      (g.connect i j stmt).edges[k]? = g.edges[k]? := by
    have hlt := List.mem_range.mp hk
    simp only [connect, Array.getElem?_push, if_neg (Nat.ne_of_lt hlt)]
  have hsize : (g.connect i j stmt).edges.size = g.edges.size + 1 := by simp [connect]
  rw [leaving, hsize, List.range_succ, List.filter_append, leaving]
  congr 1
  · refine List.filter_congr fun k hk => ?_
    rw [hold k hk]
  · simp [connect, List.filter_cons]

theorem map_id_connect (g : FlowGraph) (i j : ℕ) (stmt : Option Expr) :
    (g.connect i j stmt).nodes.map (·.id) = g.nodes.map (·.id) := by
  apply Array.ext_getElem?
  intro l
  simp only [connect, Array.getElem?_map, Array.getElem?_modify]
  split_ifs
  · cases g.nodes[l]? <;> rfl
  · rfl

theorem Coherent.connect {g : FlowGraph} (h : g.Coherent) {i j : ℕ} (hi : i < g.nodes.size)
    (hj : j < g.nodes.size) (stmt : Option Expr) : (g.connect i j stmt).Coherent := by
  have hids := g.map_id_connect i j stmt
  have hsize : (g.connect i j stmt).nodes.size = g.nodes.size := by simp [FlowGraph.connect]
  have hedge {P : ℕ → Edge → Prop} (hold : ∀ (k : ℕ) (e : Edge), g.edges[k]? = some e → P k e)
      (hnew : P g.edges.size ⟨"e" ++ toString g.edges.size, i, j, stmt, [], 0⟩) (k : ℕ) (e : Edge)
      (hk : (g.connect i j stmt).edges[k]? = some e) : P k e := by
    simp only [FlowGraph.connect, Array.getElem?_push] at hk
    split_ifs at hk with hlast
    · obtain rfl := Option.some.inj hk
      exact hlast ▸ hnew
    · exact hold k e hk
  constructor
  case ids_nodup => exact hids ▸ h.ids_nodup
  case ids_ne_empty => exact hids ▸ h.ids_ne_empty
  case edge_id => exact hedge h.edge_id rfl
  case edge_ends =>
    rw [hsize]
    exact hedge h.edge_ends ⟨hi, hj⟩
  case out_eq =>
    intro l n hn
    rw [leaving_connect]
    simp only [FlowGraph.connect, Array.getElem?_modify] at hn
    split_ifs at hn ⊢ with hil
    · obtain ⟨n₀, hn₀, rfl⟩ := Option.map_eq_some_iff.mp hn
      rw [← h.out_eq l n₀ hn₀]
    · rw [List.append_nil, h.out_eq l n hn]
  case entry_lt => exact hsize ▸ h.entry_lt
  case names_nodup => exact h.names_nodup

theorem Coherent.register {g : FlowGraph} (h : g.Coherent) {name : String} {i : ℕ}
    (hnew : ∀ p ∈ g.procedures, p.1 ≠ name) (hi : i < g.nodes.size) :
    Coherent { g with procedures := g.procedures ++ [(name, i)] } where
  ids_nodup := h.ids_nodup
  ids_ne_empty := h.ids_ne_empty
  edge_id := h.edge_id
  edge_ends := h.edge_ends
  out_eq := h.out_eq
  entry_lt := by
    intro p hp
    rcases List.mem_append.mp hp with hp | hp
    · exact h.entry_lt p hp
    · rw [List.mem_singleton.mp hp]
      exact hi
  names_nodup := by
    rw [List.map_append, List.nodup_append]
    refine ⟨h.names_nodup, List.nodup_singleton _, ?_⟩
    rintro x hx y hy rfl
    obtain ⟨p, hp, rfl⟩ := List.mem_map.mp hx
    exact hnew p hp (List.mem_singleton.mp hy)

theorem Coherent.grows {g g' : FlowGraph} (h : g.Coherent) (hstep : Grows g g') :
    g'.Coherent := by
  cases hstep with
  | node hid hnew => exact h.pushNode hid hnew
  | edge stmt hi hj => exact h.connect hi hj stmt
  | procedure hnew hi => exact h.register hnew hi

theorem leaving_skeleton (g : FlowGraph) : g.skeleton.leaving = g.leaving := by
  funext i
  simp only [leaving, skeleton, Array.size_map, Array.getElem?_map, Option.map_map]
  rfl

/-- Coherence does not look at matrices and generator sets. -/
theorem Coherent.of_skeleton_eq {g g' : FlowGraph} (hg : g.Coherent)
    (h : g'.skeleton = g.skeleton) : g'.Coherent := by
  have hids : g'.nodes.map (·.id) = g.nodes.map (·.id) := by
    have hmap := congrArg (fun k : FlowGraph => k.nodes.map (·.id)) h
    simp only [skeleton, Array.map_map] at hmap
    exact hmap
  have hnode {i : ℕ} {n' : Node} (hn' : g'.nodes[i]? = some n') :
      ∃ n, g.nodes[i]? = some n ∧ n.bare = n'.bare := by
    have hi := congrArg (fun k : FlowGraph => k.nodes[i]?) h
    simp only [skeleton, Array.getElem?_map, hn', Option.map_some] at hi
    exact Option.map_eq_some_iff.mp hi.symm
  have hedge {k : ℕ} {e' : Edge} (he' : g'.edges[k]? = some e') :
      ∃ e, g.edges[k]? = some e ∧ e.bare = e'.bare := by
    have hk := congrArg (fun l : FlowGraph => l.edges[k]?) h
    simp only [skeleton, Array.getElem?_map, he', Option.map_some] at hk
    exact Option.map_eq_some_iff.mp hk.symm
  constructor
  case ids_nodup => exact hids ▸ hg.ids_nodup
  case ids_ne_empty => exact hids ▸ hg.ids_ne_empty
  case edge_id =>
    intro k e' he'
    obtain ⟨e, he, hbare⟩ := hedge he'
    rw [← hg.edge_id k e he]
    exact (congrArg Edge.id hbare).symm
  case edge_ends =>
    intro k e' he'
    obtain ⟨e, he, hbare⟩ := hedge he'
    have hends := hg.edge_ends k e he
    rw [size_nodes_congr h]
    exact ⟨congrArg Edge.source hbare ▸ hends.1, congrArg Edge.target hbare ▸ hends.2⟩
  case out_eq =>
    intro i n' hn'
    obtain ⟨n, hn, hbare⟩ := hnode hn'
    rw [← leaving_skeleton, h, leaving_skeleton, ← hg.out_eq i n hn]
    exact (congrArg Node.out hbare).symm
  case entry_lt =>
    rw [procedures_congr h, size_nodes_congr h]
    exact hg.entry_lt
  case names_nodup => exact procedures_congr h ▸ hg.names_nodup

/-- An action grows the graph or leaves its skeleton alone. -/
theorem growsTo_or_skeleton_eq {g : FlowGraph} (h : g.WellFormed) (action : Action) :
    GrowsTo g (g.perform action) ∨ (g.perform action).skeleton = g.skeleton := by
  cases action with
  | addNode id => exact .inl (g.growsTo_addNode id)
  | addEdge source target stmt => exact .inl (g.growsTo_addEdge source target stmt)
  | addProcedure name entry => exact .inl (g.growsTo_addProcedure name entry)
  | analyze a => exact .inr (skeleton_run h a)

theorem vars_perform {g : FlowGraph} (h : g.WellFormed) (action : Action) :
    (g.perform action).vars = g.vars := by
  rcases growsTo_or_skeleton_eq h action with hgrow | hskel
  · exact hgrow.vars_eq
  · exact vars_congr hskel

theorem Coherent.perform {g : FlowGraph} (hwf : g.WellFormed) (h : g.Coherent)
    (action : Action) : (g.perform action).Coherent := by
  rcases growsTo_or_skeleton_eq hwf action with hgrow | hskel
  · exact hgrow.preserves Coherent.grows h
  · exact h.of_skeleton_eq hskel

theorem Coherent.after {g : FlowGraph} (hwf : g.WellFormed) (h : g.Coherent)
    (history : List Action) : (g.after history).vars = g.vars ∧ (g.after history).Coherent := by
  induction history generalizing g with
  | nil => exact ⟨rfl, h⟩
  | cons action history ih =>
      obtain ⟨hvars, hcoherent⟩ := ih (hwf.perform action) (h.perform hwf action)
      exact ⟨hvars.trans (vars_perform hwf action), hcoherent⟩

/-- A name leads to the one node that has it. -/
theorem Coherent.find?_eq_some_iff {g : FlowGraph} (h : g.Coherent) {id : String} {i : ℕ} :
    g.find? id = some i ↔ g.nodes[i]?.map (·.id) = some id := by
  have hname {j : ℕ} (hj : g.find? id = some j) : g.nodes[j]?.map (·.id) = some id := by
    obtain ⟨hlt, hid, -⟩ := Array.findIdx?_eq_some_iff_getElem.mp hj
    rw [Array.getElem?_eq_getElem hlt, Option.map_some, eq_of_beq hid]
  refine ⟨hname, fun hi => ?_⟩
  cases hfind : g.find? id with
  | none =>
      rw [← Array.getElem?_map] at hi
      exact absurd (Array.mem_of_getElem? hi) (find?_eq_none_iff.mp hfind)
  | some j =>
      have hj := hname hfind
      rw [← Array.getElem?_map, ← Array.getElem?_toList] at hi hj
      have hlt : j < (g.nodes.map (·.id)).toList.length := (List.getElem?_eq_some_iff.mp hj).1
      rw [(List.getElem?_inj hlt h.ids_nodup).mp (hj.trans hi.symm)]

/-- The edges that leave a node are a part of the list of all edges. -/
theorem Coherent.outEdges_eq {g : FlowGraph} (h : g.Coherent) (i : ℕ) :
    g.outEdges i = g.edges.toList.filter fun e => e.source == i := by
  have hall : g.edges.toList = (List.range g.edges.size).filterMap fun k => g.edges[k]? := by
    have hsome : (List.range g.edges.size).map (fun k => g.edges[k]?) =
        g.edges.toList.map some := by
      apply List.ext_getElem
      · simp
      · intro k hk _
        have hk : k < g.edges.size := by simpa using hk
        simp [hk]
    calc g.edges.toList = (g.edges.toList.map some).filterMap id := by simp [List.filterMap_map]
      _ = ((List.range g.edges.size).map fun k => g.edges[k]?).filterMap id := by rw [hsome]
      _ = _ := List.filterMap_map
  have hout : g.outEdges i = (g.leaving i).filterMap fun k => g.edges[k]? := by
    rw [outEdges]
    cases hn : g.nodes[i]? with
    | none => rw [leaving_of_size_le h (Array.getElem?_eq_none_iff.mp hn), List.filterMap_nil]
    | some n =>
        dsimp only
        rw [h.out_eq i n hn]
  rw [hout, hall, leaving, List.filterMap_filter, List.filter_filterMap]
  refine List.filterMap_congr fun k _ => ?_
  cases g.edges[k]? with
  | none => rfl
  | some e => simp [Option.filter]

end FlowGraph

theorem slot?_of_getElem? {vars : List String} (h : vars.Nodup) {i : ℕ} {x : String}
    (hx : vars[i]? = some x) : slot? vars x = some (i + 1) := by
  obtain ⟨hlt, rfl⟩ := List.getElem?_eq_some_iff.mp hx
  have hfirst : vars.idxOf? vars[i] = some i := by
    refine List.idxOf?_eq_some_iff.mpr ⟨hlt, rfl, fun j hj hji => ?_⟩
    exact Nat.ne_of_lt hj (h.getElem_inj_iff.mp hji)
  rw [slot?, hfirst, Option.map_some]

namespace FlowGraph

/-- Variables are accepted if they have distinct names that are not empty. From
there on, whatever is added or analysed and whether or not it fails, the parts
of the graph agree: nodes have distinct names that are not empty and are found
by them, the edge at position `k` is named after `k` and joins two nodes, each
node lists the edges that leave it in the order of all edges, procedures start
at nodes, and each variable has its position's column. -/
theorem coherent_after (vars : List String) :
    ((∃ start, ofVars vars = .ok start) ↔ vars.Nodup ∧ "" ∉ vars) ∧
    ∀ start, ofVars vars = .ok start → ∀ history : List Action,
      let g := start.after history
      g.vars = vars ∧ g.Coherent ∧
      (∀ id i, g.find? id = some i ↔ g.nodes[i]?.map (·.id) = some id) ∧
      (∀ i, g.outEdges i = g.edges.toList.filter fun e => e.source == i) ∧
      (∀ i x, vars[i]? = some x → (slot? g.vars x).getD 0 = i + 1) ∧
      ∀ x ∉ vars, (slot? g.vars x).getD 0 = 0 := by
  refine ⟨by simp [ofVars_eq_ok_iff], ?_⟩
  intro start hstart history g
  obtain ⟨hvars, hcoherent⟩ : g.vars = start.vars ∧ g.Coherent :=
    (coherent_ofVars hstart).after (wellFormed_ofVars hstart) history
  obtain ⟨⟨hnodup, -⟩, rfl⟩ := ofVars_eq_ok_iff.mp hstart
  refine ⟨hvars, hcoherent, fun _ _ => hcoherent.find?_eq_some_iff, hcoherent.outEdges_eq, ?_, ?_⟩
  · intro i x hx
    rw [hvars, slot?_of_getElem? hnodup hx, Option.getD_some]
  · intro x hx
    rw [hvars, slot?_eq_none.mpr hx, Option.getD_none]

end FlowGraph

end AffineRelations
