import AffineRelations.FlowGraph
import Mathlib.Data.Nat.Notation
import Mathlib.Logic.Relation
import Mathlib.Tactic.SplitIfs

/-!
# How a flow graph grows

An update changes a graph by steps of three kinds: a node with a new name is
appended, an edge between two nodes is appended, or a procedure with a new name
is registered at a node. That holds of updates that fail as well; what they did
before they failed are such steps. So an invariant of graphs is kept by every
update if the three steps keep it.
-/
namespace AffineRelations.FlowGraph

def pushNode (g : FlowGraph) (id : String) : FlowGraph :=
  { g with nodes := g.nodes.push ⟨id, [], none⟩ }

inductive Grows : FlowGraph → FlowGraph → Prop
  | node {g : FlowGraph} {id : String} :
      id ≠ "" → g.find? id = none → Grows g (g.pushNode id)
  | edge {g : FlowGraph} {i j : ℕ} (stmt : Option Expr) :
      i < g.nodes.size → j < g.nodes.size → Grows g (g.connect i j stmt)
  | procedure {g : FlowGraph} {name : String} {i : ℕ} :
      (∀ p ∈ g.procedures, p.1 ≠ name) → i < g.nodes.size →
      Grows g { g with procedures := g.procedures ++ [(name, i)] }

/-- Steps in a row. -/
abbrev GrowsTo : FlowGraph → FlowGraph → Prop := Relation.ReflTransGen Grows

theorem Grows.vars_eq {g g' : FlowGraph} (h : Grows g g') : g'.vars = g.vars := by
  cases h <;> rfl

theorem GrowsTo.vars_eq {g g' : FlowGraph} (h : GrowsTo g g') : g'.vars = g.vars := by
  induction h with
  | refl => rfl
  | tail _ hstep ih => exact hstep.vars_eq.trans ih

/-- What the steps keep is kept by any number of them. -/
theorem GrowsTo.preserves {P : FlowGraph → Prop} (hP : ∀ {g g'}, P g → Grows g g' → P g')
    {g g' : FlowGraph} (h : GrowsTo g g') (hg : P g) : P g' := by
  induction h with
  | refl => exact hg
  | tail _ hstep ih => exact hP ih hstep

section Updates
variable (g : FlowGraph)

/-- A node that an update needs is there, is refused or is appended. -/
theorem addNode_cases (id : String) :
    ((g.addNode id).1 = g ∨
        id ≠ "" ∧ g.find? id = none ∧ (g.addNode id).1 = g.pushNode id) ∧
      ∀ i, (g.addNode id).2 = .ok i → i < (g.addNode id).1.nodes.size := by
  rw [addNode]
  split_ifs with hid
  · simp
  · cases hfind : g.find? id with
    | some k =>
        refine ⟨.inl rfl, fun i hi => ?_⟩
        obtain rfl : k = i := by simpa using hi
        exact (Array.findIdx?_eq_some_iff_findIdx_eq.mp hfind).1
    | none =>
        refine ⟨.inr ⟨hid, rfl, rfl⟩, fun i hi => ?_⟩
        obtain rfl : g.nodes.size = i := by simpa using hi
        simp

theorem growsTo_addNode (id : String) : GrowsTo g (g.addNode id).1 := by
  rcases (g.addNode_cases id).1 with heq | ⟨hid, hnew, heq⟩
  · rw [heq]
  · rw [heq]
    exact .single (.node hid hnew)

/-- A node for another update leaves the procedures alone. -/
theorem growsTo_addNodeFor (u : GraphUpdate) (id : String) :
    GrowsTo g (g.addNodeFor u id).1 ∧ (g.addNodeFor u id).1.procedures = g.procedures ∧
      g.nodes.size ≤ (g.addNodeFor u id).1.nodes.size ∧
      ∀ i, (g.addNodeFor u id).2 = .ok i → i < (g.addNodeFor u id).1.nodes.size := by
  rw [addNodeFor]
  split_ifs with hid
  · exact ⟨.refl, rfl, Nat.le_refl _, by simp⟩
  · obtain ⟨hcases, hlt⟩ := g.addNode_cases id
    refine ⟨g.growsTo_addNode id, ?_, ?_, hlt⟩
    · rcases hcases with heq | ⟨-, -, heq⟩
      · rw [heq]
      · rw [heq, pushNode]
    · rcases hcases with heq | ⟨-, -, heq⟩
      · exact Nat.le_of_eq (by rw [heq])
      · simp [heq, pushNode]

theorem growsTo_addEdge (source target : String) (stmt : Option Expr) :
    GrowsTo g (g.addEdge source target stmt).1 := by
  obtain ⟨h₁, -, -, hlt₁⟩ := g.growsTo_addNodeFor .edge source
  rw [addEdge]
  generalize g.addNodeFor .edge source = after₁ at h₁ hlt₁ ⊢
  obtain ⟨g₁, e | i⟩ := after₁
  · exact h₁
  · obtain ⟨h₂, -, hle, hlt₂⟩ := g₁.growsTo_addNodeFor .edge target
    dsimp only
    generalize g₁.addNodeFor .edge target = after₂ at h₂ hle hlt₂ ⊢
    obtain ⟨g₂, e | j⟩ := after₂
    · exact h₁.trans h₂
    · have hi : i < g₂.nodes.size := Nat.lt_of_lt_of_le (hlt₁ i rfl) hle
      exact (h₁.trans h₂).tail (.edge stmt hi (hlt₂ j rfl))

theorem growsTo_addProcedure (name entry : String) :
    GrowsTo g (g.addProcedure name entry).1 := by
  rw [addProcedure]
  split_ifs with hdup
  · exact .refl
  · obtain ⟨h₁, hprocs, -, hlt⟩ := g.growsTo_addNodeFor .procedure entry
    have hnew : ∀ p ∈ g.procedures, p.1 ≠ name := fun p hp hname =>
      hdup (List.any_eq_true.mpr ⟨p, hp, beq_iff_eq.mpr hname⟩)
    generalize g.addNodeFor .procedure entry = after₁ at h₁ hprocs hlt ⊢
    obtain ⟨g₁, e | i⟩ := after₁
    · exact h₁
    · rw [← hprocs] at hnew
      exact h₁.tail (.procedure hnew (hlt i rfl))

end Updates

end AffineRelations.FlowGraph
