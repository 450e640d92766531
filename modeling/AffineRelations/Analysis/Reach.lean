import AffineRelations.FlowGraph

/-!
# Reachable nodes in breadth-first order

Nodes are listed in the order in which a breadth-first search leaves them. A
node enters the queue at most once, so as many steps as the graph has nodes
empty it.
-/
namespace AffineRelations.FlowGraph

/-- The members of a list that have not been seen, each once, in order. -/
def fresh (seen : List Nat) : List Nat → List Nat
  | [] => []
  | j :: js => if seen.contains j then fresh seen js else j :: fresh (j :: seen) js

/-- Follows the edges from the queued nodes on, for at most `steps` nodes. -/
def explore (g : FlowGraph) : (steps : Nat) → (queue seen : List Nat) → List Nat
  | 0, _, _ => []
  | _ + 1, [], _ => []
  | steps + 1, i :: queue, seen =>
    let found := fresh seen (g.targets i)
    i :: g.explore steps (queue ++ found) (found ++ seen)

/-- The nodes reachable from `start` without passing one that has been seen. -/
def reachBeyond (g : FlowGraph) (seen : List Nat) (start : Nat) : List Nat :=
  if seen.contains start then [] else g.explore g.nodes.size [start] (start :: seen)

/-- The nodes reachable from `start`. -/
def reach (g : FlowGraph) (start : Nat) : List Nat := g.reachBeyond [] start

/-- The nodes reachable from some start, each once. -/
def reachAny (g : FlowGraph) (starts : List Nat) : List Nat :=
  starts.foldl (fun seen s => seen ++ g.reachBeyond seen s) []

end AffineRelations.FlowGraph
