import AffineRelations.Expr.Parse
import AffineRelations.FlowGraph

/-!
# Program documents

A document lists variables, procedures with their entry nodes, further nodes,
and edges with their statements as text. Its graph has the declared nodes first,
then the entries in the order of the procedures' names, then the ends of the
edges.
-/
namespace AffineRelations

structure EdgeDocument where
  source : String
  target : String
  stmt : String
  deriving DecidableEq, Repr

structure ProgramDocument where
  vars : List String
  /-- Entry nodes by procedure; each name occurs once. -/
  procedures : List (String × String)
  nodes : List String
  edges : List EdgeDocument
  deriving DecidableEq, Repr

inductive DocumentError where
  /-- The text is no document of the expected form. -/
  | malformed
  | empty
  | noProcedures
  | graph (cause : GraphError)
  | procedure (name : String) (cause : GraphError)
  | edgeEnds (index : Nat)
  | statement (index : Nat) (source target : String) (cause : SyntaxError)
  | edge (index : Nat) (cause : GraphError)
  deriving DecidableEq, Repr

/-- The cause in front of the sentence that all invalid documents share. -/
def invalidDocument (cause : String) : String := cause ++ ": loader: invalid program document"

def DocumentError.message : DocumentError → String
  | .malformed => "loader: decoding yaml"
  | .empty => invalidDocument "empty document"
  | .noProcedures => invalidDocument "no procedures"
  | .graph e => invalidDocument e.message
  | .procedure p e => invalidDocument ("procedure " ++ Text.quoted p ++ ": " ++ e.message)
  | .edgeEnds i => invalidDocument s!"edge {i}: from and to are required"
  | .statement i source target e => s!"loader: edge {i} ({source}->{target}): " ++ e.message
  | .edge i e => invalidDocument (s!"edge {i}: " ++ e.message)

namespace ProgramDocument

def addNodes (g : FlowGraph) : List String → Except DocumentError FlowGraph
  | [] => .ok g
  | id :: ids => match g.addNode id with
    | (g, .ok _) => addNodes g ids
    | (_, .error e) => .error (.graph e)

def addProcedures (g : FlowGraph) : List (String × String) → Except DocumentError FlowGraph
  | [] => .ok g
  | (name, entry) :: rest => match g.addProcedure name entry with
    | (g, .ok _) => addProcedures g rest
    | (_, .error e) => .error (.procedure name e)

/-- The statement of an edge; an empty text is no statement. -/
def statement (i : Nat) (e : EdgeDocument) : Except DocumentError (Option Expr) :=
  if e.stmt = "" then .ok none
  else match Expr.parse e.stmt with
    | .ok s => .ok (some s)
    | .error cause => .error (.statement i e.source e.target cause)

def addEdges (g : FlowGraph) (i : Nat) : List EdgeDocument → Except DocumentError FlowGraph
  | [] => .ok g
  | e :: es =>
    if e.source = "" ∨ e.target = "" then .error (.edgeEnds i)
    else match statement i e with
      | .error cause => .error cause
      | .ok stmt => match g.addEdge e.source e.target stmt with
        | (g, .ok _) => addEdges g (i + 1) es
        | (_, .error cause) => .error (.edge i cause)

/-- The procedures in the order of their names. -/
def sortedProcedures (d : ProgramDocument) : List (String × String) :=
  d.procedures.mergeSort fun p q => !(q.1 < p.1)

/-- The graph of a document. -/
def toGraph (d : ProgramDocument) : Except DocumentError FlowGraph :=
  if d.procedures.isEmpty then .error .noProcedures
  else match FlowGraph.ofVars d.vars with
    | .error e => .error (.graph e)
    | .ok g => match addNodes g d.nodes with
      | .error e => .error e
      | .ok g => match addProcedures g d.sortedProcedures with
        | .error e => .error e
        | .ok g => addEdges g 0 d.edges

end ProgramDocument

end AffineRelations
