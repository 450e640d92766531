import AffineRelations.Proofs.FlowGraph.Growth

/-!
# What failed updates leave behind

Nodes and procedures are checked before anything changes, so a failure leaves
the graph as it was. An edge adds its source before it looks at its target. If
the target has no name, a source that was new stays behind as a node without
edges.
-/
namespace AffineRelations.FlowGraph

variable {g g' : FlowGraph} {err : GraphError}

theorem pushNode_ne (g : FlowGraph) (id : String) : g.pushNode id ≠ g := by
  intro h
  have hsize := congrArg (fun k : FlowGraph => k.nodes.size) h
  simp [pushNode] at hsize

/-- The graph that an update goes on with once the node is there. -/
theorem addNode_of_ne_empty {id : String} (hid : id ≠ "") :
    ∃ i, g.addNode id = (if g.find? id = none then g.pushNode id else g, .ok i) := by
  unfold addNode
  rw [if_neg hid]
  cases g.find? id with
  | none => exact ⟨g.nodes.size, rfl⟩
  | some i => exact ⟨i, rfl⟩

theorem addNode_eq_error_iff {id : String} :
    g.addNode id = (g', .error err) ↔ id = "" ∧ g' = g ∧ err = .emptyNodeId none := by
  by_cases hid : id = ""
  · unfold addNode
    rw [if_pos hid, Prod.mk.injEq, Except.error.injEq]
    simp only [hid, true_and, eq_comm]
  · obtain ⟨i, heq⟩ := addNode_of_ne_empty (g := g) hid
    simp [heq, hid]

theorem addNodeFor_eq_error_iff {u : GraphUpdate} {id : String} :
    g.addNodeFor u id = (g', .error err) ↔
      id = "" ∧ g' = g ∧ err = .emptyNodeId (some u) := by
  unfold addNodeFor
  split_ifs with hid
  · rw [Prod.mk.injEq, Except.error.injEq]
    simp only [hid, true_and, eq_comm]
  · rw [addNode_eq_error_iff]
    simp only [hid, false_and]

theorem addProcedure_eq_error_iff {name entry : String} :
    g.addProcedure name entry = (g', .error err) ↔ g' = g ∧
      (name ∈ g.procedures.map Prod.fst ∧ err = .duplicateProcedure name ∨
        name ∉ g.procedures.map Prod.fst ∧ entry = "" ∧
          err = .emptyNodeId (some .procedure)) := by
  have hknown : (g.procedures.any fun p => p.1 == name) = true ↔
      name ∈ g.procedures.map Prod.fst := by simp [List.any_eq_true]
  unfold addProcedure
  split_ifs with hdup
  · rw [Prod.mk.injEq, Except.error.injEq]
    simp only [hknown.mp hdup, true_and, not_true, false_and, or_false, eq_comm]
  · have hnew := mt hknown.mpr hdup
    have hentry : g.addNodeFor .procedure entry = (g', .error err) ↔
        entry = "" ∧ g' = g ∧ err = .emptyNodeId (some .procedure) := addNodeFor_eq_error_iff
    simp only [hnew, false_and, false_or, not_false_eq_true, true_and]
    rw [← and_left_comm, ← hentry]
    rcases g.addNodeFor .procedure entry with ⟨g₁, e | i⟩ <;> simp

theorem addEdge_eq_error_iff {source target : String} {stmt : Option Expr} :
    g.addEdge source target stmt = (g', .error err) ↔ err = .emptyNodeId (some .edge) ∧
      (source = "" ∧ g' = g ∨ source ≠ "" ∧ target = "" ∧
        g' = if g.find? source = none then g.pushNode source else g) := by
  unfold addEdge
  by_cases hsource : source = ""
  · rw [addNodeFor_eq_error_iff.mpr ⟨hsource, rfl, rfl⟩]
    simp [hsource, eq_comm, and_comm]
  · obtain ⟨i, hadd⟩ := addNode_of_ne_empty (g := g) hsource
    have hfor : g.addNodeFor .edge source = g.addNode source := if_neg hsource
    rw [hfor, hadd]
    generalize (if g.find? source = none then g.pushNode source else g) = g₁
    have htarget : g₁.addNodeFor .edge target = (g', .error err) ↔
        target = "" ∧ g' = g₁ ∧ err = .emptyNodeId (some .edge) := addNodeFor_eq_error_iff
    dsimp only
    simp only [hsource, false_and, false_or, ne_eq, not_false_eq_true, true_and]
    rw [and_left_comm, and_comm (a := err = _), ← htarget]
    rcases g₁.addNodeFor .edge target with ⟨g₂, e | j⟩ <;> simp

/-- An update fails for want of a name, or because a procedure is known, and
for no other reason. A node or a procedure that is refused leaves the graph as
it was, and so does an edge, except when its source is new and only its target
has no name: then the source has been added, and that is always a change. -/
theorem addition_eq_error_iff (g : FlowGraph) :
    (∀ id g' err, g.addNode id = (g', .error err) ↔
      id = "" ∧ g' = g ∧ err = .emptyNodeId none) ∧
    (∀ name entry g' err, g.addProcedure name entry = (g', .error err) ↔ g' = g ∧
      (name ∈ g.procedures.map Prod.fst ∧ err = .duplicateProcedure name ∨
        name ∉ g.procedures.map Prod.fst ∧ entry = "" ∧
          err = .emptyNodeId (some .procedure))) ∧
    (∀ source target stmt g' err, g.addEdge source target stmt = (g', .error err) ↔
      err = .emptyNodeId (some .edge) ∧
        (source = "" ∧ g' = g ∨ source ≠ "" ∧ target = "" ∧
          g' = if g.find? source = none then g.pushNode source else g)) ∧
    ∀ id, g.pushNode id ≠ g :=
  ⟨fun _ _ _ => addNode_eq_error_iff, fun _ _ _ _ => addProcedure_eq_error_iff,
    fun _ _ _ _ _ => addEdge_eq_error_iff, g.pushNode_ne⟩

/-- An edge that is refused leaves its source behind. -/
theorem addEdge_error_changes : ∃ g g' : FlowGraph, ofVars [] = .ok g ∧
    g.addEdge "a" "" none = (g', .error (.emptyNodeId (some .edge))) ∧ g' ≠ g ∧
    g.find? "a" = none ∧ g'.find? "a" = some 0 := by
  let g : FlowGraph := ⟨[], #[], #[], []⟩
  have hnew : g.find? "a" = none := by decide +kernel
  refine ⟨g, g.pushNode "a", rfl, addEdge_eq_error_iff.mpr ⟨rfl, .inr ⟨by decide, rfl, ?_⟩⟩,
    g.pushNode_ne "a", hnew, by decide +kernel⟩
  rw [if_pos hnew]

end AffineRelations.FlowGraph
