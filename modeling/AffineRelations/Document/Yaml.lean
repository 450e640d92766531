import AffineRelations.Document.Program
import AffineRelations.Yaml.Read

/-!
# Program documents in YAML

A document is a mapping with the keys `vars`, `procedures`, `nodes` and
`edges`, each of which may be missing or null. Numbers and truth values are
taken as text. A null in a list is passed over, and a null where a text is
expected is the empty text. Unknown keys, keys given twice and values of the
wrong kind make the whole document malformed.

The key `<<` merges one mapping or several into its own. What a mapping gives
itself wins over what it merges, and of several mappings the first one wins.
-/
namespace AffineRelations

namespace Yaml

/-- The entries of a mapping in their order, with texts as keys. -/
abbrev Entries := List (String × Yaml)

/-- The entries that a mapping gives itself. An entry with a null as key is
passed over, and so are keys that are `settled`. -/
def ownEntries (settled : List String) : List (Yaml × Yaml) → Option Entries
  | [] => some []
  | (k, v) :: rest =>
    if k.isMerge || k.isNull then ownEntries settled rest
    else match k.string? with
      | none => none
      | some s =>
        if settled.contains s then ownEntries settled rest
        else (ownEntries settled rest).map fun es => (s, v) :: es

mutual

/-- The entries that a mapping brings where it is merged into another one, whose
keys are settled. -/
def mergedEntries (settled : List String) : Yaml → Option Entries
  | .map pairs =>
    if distinctKeys pairs then match ownEntries settled pairs with
      | none => none
      | some own => match mergedByKey (settled ++ own.map (·.1)) pairs with
        | none => none
        | some more => some (own ++ more)
    else none
  | .reference _ y => mergedEntries settled y
  | _ => none

/-- The entries that the merge key of a mapping brings. -/
def mergedByKey (settled : List String) : List (Yaml × Yaml) → Option Entries
  | [] => some []
  | (k, v) :: rest =>
    if k.isMerge then match v with
      | .seq items => mergedItems settled items
      | v => mergedEntries settled v
    else mergedByKey settled rest

/-- The entries that several mappings bring. -/
def mergedItems (settled : List String) : List Yaml → Option Entries
  | [] => some []
  | y :: ys => match mergedEntries settled y with
    | none => none
    | some es => match mergedItems (settled ++ es.map (·.1)) ys with
      | none => none
      | some more => some (es ++ more)

end

/-- All entries of a mapping, its own ones first; null is the empty mapping. -/
def entries? (y : Yaml) : Option Entries :=
  match y.target with
  | .map pairs =>
    if distinctKeys pairs then match ownEntries [] pairs with
      | none => none
      | some own => (mergedByKey (pairs.filterMap fun p => p.1.keyName?) pairs).map (own ++ ·)
    else none
  | y => if y.isNull then some [] else none

/-- The entries of a sequence; null is the empty sequence. -/
def items? (y : Yaml) : Option (List Yaml) :=
  match y.target with
  | .seq ys => some ys
  | y => if y.isNull then some [] else none

/-- A list of texts without its nulls. -/
def strings? (y : Yaml) : Option (List String) := do
  let ys ← y.items?
  (ys.filter fun y => !y.isNull).mapM string?

/-- The fields of a record: of the keys only the known ones are allowed, each
once. -/
def fields? (known : List String) (y : Yaml) : Option Entries := do
  let es ← y.entries?
  let keys := es.map (·.1)
  require (keys.all known.contains && keys.eraseDups.length == keys.length)
  return es

/-- Gives a key a text. Null leaves a text that is there. -/
def put (d : List (String × String)) (k : String) (v : Yaml) : Option (List (String × String)) := do
  let s ← v.string?
  if !(d.any fun p => p.1 == k) then return d ++ [(k, s)]
  if v.isNull then return d
  return d.map fun p => if p.1 == k then (k, s) else p

/-- A mapping from texts to texts. -/
def dictionary? (y : Yaml) : Option (List (String × String)) := do
  let es ← y.entries?
  es.foldlM (fun d (k, v) => put d k v) []

/-- The value of a field, which is null if the field is missing. -/
def field (fs : Entries) (k : String) : Yaml := (fs.lookup k).getD null

end Yaml

def EdgeDocument.ofYaml? (y : Yaml) : Option EdgeDocument := do
  let fs ← y.fields? ["from", "to", "stmt"]
  let source ← (Yaml.field fs "from").string?
  let target ← (Yaml.field fs "to").string?
  let stmt ← (Yaml.field fs "stmt").string?
  return ⟨source, target, stmt⟩

namespace ProgramDocument

def ofYaml? (y : Yaml) : Option ProgramDocument := do
  let fs ← y.fields? ["vars", "procedures", "nodes", "edges"]
  let vars ← (Yaml.field fs "vars").strings?
  let procedures ← (Yaml.field fs "procedures").dictionary?
  let nodes ← (Yaml.field fs "nodes").strings?
  let edges ← (Yaml.field fs "edges").items?
  let edges ← (edges.filter fun y => !y.isNull).mapM EdgeDocument.ofYaml?
  return ⟨vars, procedures, nodes, edges⟩

/-- Reads a document and builds its graph. -/
def load (text : String) : Except DocumentError FlowGraph :=
  match Yaml.readInput text with
  | .malformed => .error .malformed
  | .empty => .error .empty
  | .document y => match ofYaml? y with
    | none => .error .malformed
    | some d => d.toGraph

end ProgramDocument

end AffineRelations
