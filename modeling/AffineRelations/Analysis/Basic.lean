import AffineRelations.FlowGraph

/-!
# Analyzers and what they report

An analyzer is fixed for a width, a number of variables and an entry procedure.
A run answers with the entry node, counters and the events in their order: an
event for each edge whose matrices were computed, and one for each time that a
node's generator set grew.
-/
namespace AffineRelations

inductive AnalysisError where
  | negativeVars (count : Int)
  | width (cause : WordError)
  | emptyEntry
  | noGraph
  | varCount (tracked expected : Nat)
  | entry (cause : GraphError)
  | matrix (edge : String) (cause : WordError)
  /-- A matrix made a vector that no generator set of the run can take. -/
  | dimension (cause : DimensionError)
  /-- The run was led to a node or an edge that the graph does not have. -/
  | missingNode (position : Nat)
  | missingEdge (position : Nat)
  /-- A vector was offered to a node that has no generator set. -/
  | missingGenerators (node : String)
  deriving DecidableEq, Repr

def AnalysisError.message : AnalysisError → String
  | .negativeVars n => s!"analysis: invalid configuration: variable count {n}"
  | .width e => "analysis: invalid configuration: " ++ e.message
  | .emptyEntry => "analysis: invalid option supplied: entry name is empty"
  | .noGraph => "analysis: program is nil"
  | .varCount n k =>
    s!"analysis: variable count mismatch: program tracks {n}, analyzer expects {k}"
  | .entry e => "analysis: " ++ e.message
  | .matrix edge e => s!"analysis: internal invariant violated: edge {edge}: " ++ e.message
  | .dimension e => e.message
  | .missingNode i => s!"analysis: the graph has no node at position {i}"
  | .missingEdge k => s!"analysis: the graph has no edge at position {k}"
  | .missingGenerators node => "analysis: no generator set at node " ++ node

structure Analyzer where
  ring : WordRing
  vars : Nat
  entry : String
  deriving DecidableEq

namespace Analyzer

def defaultEntry : String := "main"

/-- The analyzer for a width and a number of variables. Of the entries asked for
the last one counts, and none may be empty. -/
def configure (width vars : Int) (entries : List String) : Except AnalysisError Analyzer :=
  if vars < 0 then .error (.negativeVars vars)
  else match WordRing.ofWidth width with
    | .error e => .error (.width e)
    | .ok r =>
      if entries.contains "" then .error .emptyEntry
      else .ok ⟨r, vars.toNat, entries.getLastD defaultEntry⟩

end Analyzer

structure Stats where
  /-- Edges whose matrices were computed. -/
  edges : Nat
  /-- Nodes that were given a fresh generator set. -/
  nodes : Nat
  /-- Vectors taken from the queue. -/
  pops : Nat
  /-- Vectors that made a generator set grow. -/
  accepted : Nat
  deriving DecidableEq, Repr

inductive Event where
  | matrices (edge : Edge) (name : String)
  | generators (node : String) (set : GeneratorSet)
  deriving DecidableEq

/-- The outcome of a successful run. -/
structure Findings where
  entry : Nat
  stats : Stats
  events : List Event
  deriving DecidableEq

end AffineRelations
