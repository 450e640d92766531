import AffineRelations.Analysis.Basic
import AffineRelations.Analysis.Reach
import AffineRelations.Transition

/-!
# Running an analysis

A run computes the matrices of all edges that are reachable from the entry,
unless they are there for the width already. It gives every node reachable from
some procedure an empty generator set, and offers the unit vectors to the set
of the entry. A vector that makes a set grow is queued with its node. Vectors
are taken from the queue in turn, multiplied by each matrix of each edge that
leaves the node, and the products that are not zero are offered to the set at
the edge's end.

A set of dimension `n + 1` grows at most `(n + 1) * w` times, since each time a
lead settles in a vacant slot or lowers its valuation. So the queue is empty
after `(n + 1) * w` steps for each node.

A failure stops the run: every later step leaves the state, and with it the
graph, as it is at that moment. A step fails where it would use a node, an edge
or a generator set that is not there.
-/
namespace AffineRelations

/-- The state of a run. -/
structure Progress where
  graph : FlowGraph
  queue : List (Nat × WordVec)
  stats : Stats
  events : Array Event
  failure : Option AnalysisError
  deriving DecidableEq

namespace Progress

def start (g : FlowGraph) : Progress := ⟨g, [], ⟨0, 0, 0, 0⟩, #[], none⟩

def fail (p : Progress) (e : AnalysisError) : Progress := { p with failure := some e }

/-- Computes the matrices of an edge, unless they are there for this width. -/
def materialize (r : WordRing) (p : Progress) (k : Nat) : Progress :=
  if p.failure.isSome then p
  else match p.graph.edges[k]? with
    | none => p.fail (.missingEdge k)
    | some e =>
      if e.matrices.isEmpty ∨ e.width ≠ r.width then
        let e := { e with
          matrices := r.statementMatrices p.graph.vars e.stmt
          width := r.width }
        { p with
          graph := p.graph.modifyEdge k fun _ => e
          stats := { p.stats with edges := p.stats.edges + 1 }
          events := p.events.push (.matrices e (p.graph.edgeName e)) }
      else p

/-- The edges that leave the nodes of a list, in order. -/
def leaving (g : FlowGraph) (nodes : List Nat) : List Nat :=
  nodes.flatMap fun i => (g.nodes[i]?.map (·.out)).getD []

/-- Gives a node an empty generator set. -/
def clear (r : WordRing) (dim : Nat) (p : Progress) (i : Nat) : Progress :=
  if p.failure.isSome then p
  else match p.graph.nodes[i]? with
    | none => p.fail (.missingNode i)
    | some _ =>
      { p with
        graph := p.graph.modifyNode i fun n => { n with generators := some (.empty r dim) }
        stats := { p.stats with nodes := p.stats.nodes + 1 } }

/-- Offers a vector to the set of a node. -/
def offer (p : Progress) (i : Nat) (v : WordVec) : Progress :=
  if p.failure.isSome then p
  else match p.graph.nodes[i]? with
    | none => p.fail (.missingNode i)
    | some n => match n.generators with
      | none => p.fail (.missingGenerators n.id)
      | some s => match s.insert v with
        | .error e => p.fail (.dimension e)
        | .ok (false, _) => p
        | .ok (true, s) =>
          { p with
            graph := p.graph.modifyNode i fun n => { n with generators := some s }
            queue := p.queue ++ [(i, v)]
            stats := { p.stats with accepted := p.stats.accepted + 1 }
            events := p.events.push (.generators n.id s) }

/-- Sends a vector through one matrix of an edge. -/
def send (r : WordRing) (v : WordVec) (p : Progress) (step : Edge × WordMatrix) : Progress :=
  if p.failure.isSome then p
  else match r.vecMul step.2 v with
    | .error e => p.fail (.matrix (p.graph.edgeName step.1) e)
    | .ok u => if u.isZero then p else p.offer step.1.target u

/-- The matrices on the edges that leave a node. -/
def steps (g : FlowGraph) (i : Nat) : List (Edge × WordMatrix) :=
  (g.outEdges i).flatMap fun e => e.matrices.map fun m => (e, m)

/-- Takes vectors from the queue until it is empty or a failure stops the run,
for at most `fuel` vectors. -/
def drain (r : WordRing) : (fuel : Nat) → Progress → Progress
  | 0, p => p
  | fuel + 1, p =>
    if p.failure.isSome then p
    else match p.queue with
      | [] => p
      | (i, v) :: queue =>
        let p := { p with queue := queue, stats := { p.stats with pops := p.stats.pops + 1 } }
        drain r fuel ((steps p.graph i).foldl (send r v) p)

end Progress

namespace Analyzer

/-- The state when the entry's unit vectors have been offered. -/
def prepare (a : Analyzer) (g : FlowGraph) (entry : Nat) : Progress :=
  let dim := a.vars + 1
  let p := (Progress.leaving g (g.reach entry)).foldl (Progress.materialize a.ring) (.start g)
  let p := (g.reachAny g.entries).foldl (Progress.clear a.ring dim) p
  (List.range dim).foldl (fun p i => p.offer entry (WordVec.unit dim i)) p

/-- How many vectors the queue can deliver. -/
def fuel (a : Analyzer) (g : FlowGraph) : Nat := g.nodes.size * ((a.vars + 1) * a.ring.width)

/-- Analyses a graph. The answer holds the graph with the matrices and the
generator sets that the run left in it. -/
def run (a : Analyzer) (g : FlowGraph) : FlowGraph × Except AnalysisError Findings :=
  if g.vars.length ≠ a.vars then (g, .error (.varCount g.vars.length a.vars))
  else match g.entry a.entry with
    | .error e => (g, .error (.entry e))
    | .ok entry =>
      let p := Progress.drain a.ring (a.fuel g) (a.prepare g entry)
      (p.graph, match p.failure with
        | some e => .error e
        | none => .ok ⟨entry, p.stats, p.events.toList⟩)

/-- Analyses a graph that may be absent. -/
def run? (a : Analyzer) : Option FlowGraph → Option FlowGraph × Except AnalysisError Findings
  | some g => let after := a.run g; (some after.1, after.2)
  | none => (none, .error .noGraph)

end Analyzer

end AffineRelations
