import AffineRelations.Analysis.Basic
import AffineRelations.Yaml.Write

/-!
# Reports

A report says for every node of a graph whether the analysis reached it and
what generates the states there, with the counters of the run. As text it has a
line for the run, the generators of each node one per line, and the counters.
In YAML it has its members in their order; generators are written on one line,
and left out where there are none.
-/
namespace AffineRelations

structure NodeReport where
  id : String
  /-- The generators, if some procedure reaches the node. -/
  generators : Option (List WordVec)
  deriving DecidableEq, Repr

structure Report where
  ring : String
  vars : List String
  entry : String
  stats : Stats
  nodes : List NodeReport
  deriving DecidableEq, Repr

namespace Report

def ofFindings (r : WordRing) (g : FlowGraph) (f : Findings) : Report :=
  { ring := r.render
    vars := g.vars
    entry := g.nodeId f.entry
    stats := f.stats
    nodes := g.nodes.toList.map fun n => ⟨n.id, n.generators.map GeneratorSet.vectors⟩ }

def nodeText (n : NodeReport) : String :=
  match n.generators with
  | none => n.id ++ ": not reached\n"
  | some [] => n.id ++ ": \x7b\x7d\n"
  | some vs => n.id ++ ":\n" ++ String.join (vs.map fun v => "  " ++ v.render ++ "\n")

def statsText (s : Stats) : String :=
  s!"edges={s.edges} nodes={s.nodes} pops={s.pops} accepted={s.accepted}\n"

def text (r : Report) : String :=
  r.ring ++ ", vars [" ++ String.intercalate " " r.vars ++ "], entry " ++ r.entry ++ "\n" ++
    String.join (r.nodes.map nodeText) ++ statsText r.stats

/-- A list on one line. -/
def flowList (items : List String) : String := "[" ++ String.intercalate ", " items ++ "]"

def flowVec (v : WordVec) : String := flowList (v.map fun x => toString x.toNat)

def nodeYaml (n : NodeReport) : String :=
  "  - id: " ++ Yaml.scalarLine 6 n.id ++
    "    reached: " ++ (if n.generators.isSome then "true" else "false") ++ "\n" ++
    match n.generators with
    | none | some [] => ""
    | some vs => "    generators: " ++ flowList (vs.map flowVec) ++ "\n"

def varsYaml : List String → String
  | [] => "vars: []\n"
  | vars => "vars:\n" ++ String.join (vars.map fun x => "  - " ++ Yaml.scalarLine 4 x)

def nodesYaml : List NodeReport → String
  | [] => "nodes: []\n"
  | nodes => "nodes:\n" ++ String.join (nodes.map nodeYaml)

def statsYaml (s : Stats) : String :=
  s!"stats:\n  edges: {s.edges}\n  nodes: {s.nodes}\n  pops: {s.pops}\n  accepted: {s.accepted}\n"

def yaml (r : Report) : String :=
  "ring: " ++ Yaml.scalarLine 2 r.ring ++ varsYaml r.vars ++
    "entry: " ++ Yaml.scalarLine 2 r.entry ++ statsYaml r.stats ++ nodesYaml r.nodes

end Report

end AffineRelations
