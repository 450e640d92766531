import AffineRelations.FlowGraph
import Mathlib.Data.Nat.Notation
import Mathlib.Logic.Relation
import Mathlib.Tactic.SplitIfs

/-!
# The skeleton of a flow graph

An analysis writes into a graph: matrices into edges and generator sets into
nodes. The skeleton is the graph without both. Edges, their ends and their
statements are those of the skeleton, and so is reachability.
-/
namespace AffineRelations

def Node.bare (n : Node) : Node := { n with generators := none }

def Edge.bare (e : Edge) : Edge := { e with matrices := [], width := 0 }

namespace FlowGraph

/-- The graph without matrices and generator sets. -/
def skeleton (g : FlowGraph) : FlowGraph :=
  { g with nodes := g.nodes.map Node.bare, edges := g.edges.map Edge.bare }

/-- Some path of edges leads from one node to the other. -/
def Reaches (g : FlowGraph) : ℕ → ℕ → Prop :=
  Relation.ReflTransGen fun i j => j ∈ g.targets i

/-- The generator set that a node keeps. -/
def generatorsAt (g : FlowGraph) (i : ℕ) : Option GeneratorSet :=
  g.nodes[i]?.bind (·.generators)

theorem outEdges_skeleton (g : FlowGraph) (i : ℕ) :
    g.skeleton.outEdges i = (g.outEdges i).map Edge.bare := by
  simp only [outEdges, skeleton, Array.getElem?_map]
  cases g.nodes[i]? with
  | none => rfl
  | some n => simp [Node.bare, List.map_filterMap]

theorem targets_skeleton (g : FlowGraph) : g.skeleton.targets = g.targets := by
  funext i
  simp only [targets, outEdges_skeleton, List.map_map]
  rfl

section Congruence
variable {g g' : FlowGraph} (h : g'.skeleton = g.skeleton)

include h

theorem vars_congr : g'.vars = g.vars := by
  simpa [skeleton] using congrArg FlowGraph.vars h

theorem procedures_congr : g'.procedures = g.procedures := by
  simpa [skeleton] using congrArg FlowGraph.procedures h

theorem size_nodes_congr : g'.nodes.size = g.nodes.size := by
  simpa [skeleton] using congrArg (fun k : FlowGraph => k.nodes.size) h

theorem size_edges_congr : g'.edges.size = g.edges.size := by
  simpa [skeleton] using congrArg (fun k : FlowGraph => k.edges.size) h

/-- The nodes at one position name the same edges. -/
theorem exists_out_congr {i : ℕ} {n' : Node} (hn' : g'.nodes[i]? = some n') :
    ∃ n, g.nodes[i]? = some n ∧ n.out = n'.out := by
  have hbare : g'.nodes[i]?.map Node.bare = g.nodes[i]?.map Node.bare := by
    rw [← Array.getElem?_map, ← Array.getElem?_map]
    exact congrArg (fun k : FlowGraph => k.nodes[i]?) h
  rw [hn', Option.map_some, eq_comm, Option.map_eq_some_iff] at hbare
  obtain ⟨n, hn, hsame⟩ := hbare
  have hout : n.bare.out = n'.bare.out := congrArg Node.out hsame
  exact ⟨n, hn, hout⟩

theorem targets_congr : g'.targets = g.targets := by
  rw [← targets_skeleton, h, targets_skeleton]

theorem reaches_congr : g'.Reaches = g.Reaches := by
  rw [Reaches, targets_congr h, Reaches]

theorem entry_congr : g'.entry = g.entry := by
  funext p
  rw [entry, procedures_congr h, entry]

end Congruence

theorem skeleton_modifyNode (g : FlowGraph) (i : ℕ) {f : Node → Node}
    (hf : ∀ n, (f n).bare = n.bare) : (g.modifyNode i f).skeleton = g.skeleton := by
  have hmap : (g.nodes.modify i f).map Node.bare = g.nodes.map Node.bare := by
    apply Array.ext
    · simp
    · intro j h₁ h₂
      simp only [Array.getElem_map, Array.getElem_modify]
      split_ifs with hij
      · exact hf _
      · rfl
  rw [skeleton, modifyNode, hmap, skeleton]

theorem skeleton_modifyEdge (g : FlowGraph) (k : ℕ) {f : Edge → Edge}
    (hf : ∀ e, g.edges[k]? = some e → (f e).bare = e.bare) :
    (g.modifyEdge k f).skeleton = g.skeleton := by
  have hmap : (g.edges.modify k f).map Edge.bare = g.edges.map Edge.bare := by
    apply Array.ext
    · simp
    · intro j h₁ h₂
      simp only [Array.getElem_map, Array.getElem_modify]
      split_ifs with hkj
      · subst hkj
        exact hf _ (Array.getElem?_eq_getElem _)
      · rfl
  rw [skeleton, modifyEdge, hmap, skeleton]

theorem outEdges_modifyNode (g : FlowGraph) (i j : ℕ) {f : Node → Node}
    (hf : ∀ n, (f n).out = n.out) : (g.modifyNode i f).outEdges j = g.outEdges j := by
  simp only [outEdges, modifyNode, Array.getElem?_modify]
  split_ifs with hij
  · cases g.nodes[j]? with
    | none => rfl
    | some n => simp [hf]
  · rfl

theorem generatorsAt_modifyNode (g : FlowGraph) (i j : ℕ) (s : Option GeneratorSet) :
    (g.modifyNode i fun n => { n with generators := s }).generatorsAt j =
      if i = j then g.nodes[j]?.bind fun _ => s else g.generatorsAt j := by
  simp only [generatorsAt, modifyNode, Array.getElem?_modify]
  split_ifs with hij
  · cases g.nodes[j]? <;> rfl
  · rfl

/-- The entry nodes are those of the registered procedures. -/
theorem mem_entries {g : FlowGraph} {i : ℕ} :
    i ∈ g.entries ↔ ∃ p, g.entry p = .ok i := by
  simp only [entries, List.mem_filterMap, procedureNames, List.mem_mergeSort, entry]
  constructor
  · rintro ⟨p, -, hp⟩
    obtain ⟨q, hq, rfl⟩ := Option.map_eq_some_iff.mp hp
    exact ⟨p, by rw [hq]⟩
  · rintro ⟨p, hp⟩
    cases hq : g.procedures.find? fun q => q.1 == p with
    | none => simp [hq] at hp
    | some q =>
        have hi : q.2 = i := by simpa [hq] using hp
        have hname : q.1 = p := by simpa using List.find?_some hq
        refine ⟨p, ?_, by rw [hq, Option.map_some, hi]⟩
        exact List.mem_map.mpr ⟨q, List.mem_of_find?_eq_some hq, hname⟩

end FlowGraph

end AffineRelations
