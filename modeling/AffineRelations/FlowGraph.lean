import AffineRelations.Expr.Basic
import AffineRelations.GeneratorSet
import AffineRelations.Text.Quoted
import AffineRelations.Word.Matrix

/-!
# Flow graphs

A flow graph has variables, nodes with distinct names, edges between nodes that
may carry a statement, and procedures that name their entry node. Nodes and
edges are known by their position in the order of insertion.

An edge also keeps the matrices computed for its statement together with the
width they were computed for, and a node the generator set of the last
analysis. A failed update can leave nodes behind that it had to add first.
-/
namespace AffineRelations

/-- Updates that add a node on the way. -/
inductive GraphUpdate where
  | edge | procedure
  deriving DecidableEq, Repr

def GraphUpdate.label : GraphUpdate → String
  | .edge => "AddEdge"
  | .procedure => "AddProcedure"

inductive GraphError where
  | emptyVariable
  | duplicateVariable (name : String)
  | emptyNodeId (during : Option GraphUpdate)
  | nodeNotFound (id : String)
  | entryNotFound (procedure : String)
  | duplicateProcedure (name : String)
  deriving DecidableEq, Repr

def GraphError.message : GraphError → String
  | .emptyVariable => "NewProgram: flowgraph: variable name is empty"
  | .duplicateVariable x => "NewProgram: flowgraph: duplicate variable: " ++ Text.quoted x
  | .emptyNodeId op =>
    (match op with
      | some u => u.label ++ ": "
      | none => "") ++ "AddNode: flowgraph: node ID is empty"
  | .nodeNotFound id => "Node: flowgraph: node not found: " ++ Text.quoted id
  | .entryNotFound p => "Entry: flowgraph: entry procedure not found: " ++ Text.quoted p
  | .duplicateProcedure p =>
    "AddProcedure: flowgraph: duplicate procedure: " ++ Text.quoted p

structure Node where
  id : String
  /-- The edges that leave the node, oldest first. -/
  out : List Nat
  generators : Option GeneratorSet
  deriving DecidableEq

structure Edge where
  id : String
  source : Nat
  target : Nat
  stmt : Option Expr
  /-- No matrices have been computed if the list is empty. -/
  matrices : List WordMatrix
  width : Int
  deriving DecidableEq

structure FlowGraph where
  vars : List String
  nodes : Array Node
  edges : Array Edge
  /-- Procedures and their entry nodes. -/
  procedures : List (String × Nat)
  deriving DecidableEq

namespace FlowGraph

/-- The first complaint about a list of variables, of which some are known. -/
def checkVars (known : List String) : List String → Option GraphError
  | [] => none
  | x :: xs =>
    if x = "" then some .emptyVariable
    else if known.contains x then some (.duplicateVariable x)
    else checkVars (x :: known) xs

/-- The graph without nodes over the given variables. -/
def ofVars (vars : List String) : Except GraphError FlowGraph :=
  match checkVars [] vars with
  | some e => .error e
  | none => .ok ⟨vars, #[], #[], []⟩

/-- The position of the node with the given name. -/
def find? (g : FlowGraph) (id : String) : Option Nat :=
  g.nodes.findIdx? fun n => n.id == id

/-- The node with the given name, which is added if it is new. -/
def addNode (g : FlowGraph) (id : String) : FlowGraph × Except GraphError Nat :=
  if id = "" then (g, .error (.emptyNodeId none))
  else match g.find? id with
    | some i => (g, .ok i)
    | none => ({ g with nodes := g.nodes.push ⟨id, [], none⟩ }, .ok g.nodes.size)

/-- A node that another update needs. -/
def addNodeFor (g : FlowGraph) (update : GraphUpdate) (id : String) :
    FlowGraph × Except GraphError Nat :=
  if id = "" then (g, .error (.emptyNodeId (some update))) else g.addNode id

/-- Adds an edge between two nodes whose positions are known. -/
def connect (g : FlowGraph) (source target : Nat) (stmt : Option Expr) : FlowGraph :=
  let k := g.edges.size
  { g with
    nodes := g.nodes.modify source fun n => { n with out := n.out ++ [k] }
    edges := g.edges.push ⟨s!"e{k}", source, target, stmt, [], 0⟩ }

/-- Adds an edge and, before it, those of its ends that are new. -/
def addEdge (g : FlowGraph) (source target : String) (stmt : Option Expr) :
    FlowGraph × Except GraphError Nat :=
  match g.addNodeFor .edge source with
  | (g, .error e) => (g, .error e)
  | (g, .ok i) => match g.addNodeFor .edge target with
    | (g, .error e) => (g, .error e)
    | (g, .ok j) => (g.connect i j stmt, .ok g.edges.size)

def addProcedure (g : FlowGraph) (name entry : String) : FlowGraph × Except GraphError Unit :=
  if g.procedures.any fun p => p.1 == name then (g, .error (.duplicateProcedure name))
  else match g.addNodeFor .procedure entry with
    | (g, .error e) => (g, .error e)
    | (g, .ok i) => ({ g with procedures := g.procedures ++ [(name, i)] }, .ok ())

/-- The node with the given name. -/
def node (g : FlowGraph) (id : String) : Except GraphError Nat :=
  match g.find? id with
  | some i => .ok i
  | none => .error (.nodeNotFound id)

/-- The entry node of a procedure. -/
def entry (g : FlowGraph) (procedure : String) : Except GraphError Nat :=
  match g.procedures.find? fun p => p.1 == procedure with
  | some p => .ok p.2
  | none => .error (.entryNotFound procedure)

/-- The names of the procedures in ascending order. -/
def procedureNames (g : FlowGraph) : List String :=
  (g.procedures.map (·.1)).mergeSort fun a b => !(b < a)

/-- The entry nodes in the order of the procedures' names. -/
def entries (g : FlowGraph) : List Nat :=
  g.procedureNames.filterMap fun p => (g.procedures.find? fun q => q.1 == p).map (·.2)

def nodeId (g : FlowGraph) (i : Nat) : String := (g.nodes[i]?.map (·.id)).getD ""

/-- The names of an edge's ends. -/
def edgeName (g : FlowGraph) (e : Edge) : String :=
  g.nodeId e.source ++ "->" ++ g.nodeId e.target

/-- The edges that leave a node. -/
def outEdges (g : FlowGraph) (i : Nat) : List Edge :=
  match g.nodes[i]? with
  | some n => n.out.filterMap fun k => g.edges[k]?
  | none => []

def targets (g : FlowGraph) (i : Nat) : List Nat := (g.outEdges i).map (·.target)

def modifyEdge (g : FlowGraph) (k : Nat) (f : Edge → Edge) : FlowGraph :=
  { g with edges := g.edges.modify k f }

def modifyNode (g : FlowGraph) (i : Nat) (f : Node → Node) : FlowGraph :=
  { g with nodes := g.nodes.modify i f }

/-- Appends matrices of the given words to an edge, up to the first that is
refused. -/
def appendMatrices (g : FlowGraph) (k : Nat) :
    List (List WordVec) → FlowGraph × Except WordError Unit
  | [] => (g, .ok ())
  | vs :: rest => match WordMatrix.ofWords vs with
    | .error e => (g, .error e)
    | .ok m => (g.modifyEdge k fun e => { e with matrices := e.matrices ++ [m] }).appendMatrices
        k rest

/-- Replaces what an edge keeps of its statement's matrices. There is no answer
if the edge does not exist. -/
def setMatrices? (g : FlowGraph) (k : Int) (width : Int) (ms : List (List WordVec)) :
    Option (FlowGraph × Except WordError Unit) :=
  if 0 ≤ k ∧ k < g.edges.size then
    some ((g.modifyEdge k.toNat fun e => { e with matrices := [], width := width }).appendMatrices
      k.toNat ms)
  else none

end FlowGraph

end AffineRelations
