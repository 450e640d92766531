import AffineRelations.Toml.Read

/-!
# Tables of a TOML document

The lines of a document are put together to one tree. A key is given once. A
table that dotted keys or the headers of its parts have implied may still be
opened by a header of its own, and an array may be given again. Beside the tree
the keys are kept in the order in which their lines, or the inline tables that
hold them, come to an end.
-/
namespace AffineRelations

inductive TomlNode where
  | leaf (value : TomlValue)
  | table (fields : List (String × TomlNode))
  /-- A list of tables; lines belong to the last one. -/
  | tables (items : List (List (String × TomlNode)))
  deriving Repr

abbrev TomlFields := List (String × TomlNode)

namespace TomlFields

/-- Gives a field a value, in its place if it is there. -/
def put (fs : TomlFields) (k : String) (n : TomlNode) : TomlFields :=
  if fs.any fun p => p.1 == k then fs.map fun p => if p.1 == k then (k, n) else p
  else fs ++ [(k, n)]

/-- The fields of the table at a path. -/
def at? (fs : TomlFields) : TomlPath → Option TomlFields
  | [] => some fs
  | k :: ks => match List.lookup k fs with
    | some (.table t) => at? t ks
    | some (.tables ts) => ts.getLast?.bind fun t => at? t ks
    | _ => none

/-- Changes the fields of the table at a path. -/
def modifyAt (fs : TomlFields) (path : TomlPath) (f : TomlFields → TomlFields) : TomlFields :=
  match path with
  | [] => f fs
  | k :: ks => match List.lookup k fs with
    | some (.table t) => put fs k (.table (modifyAt t ks f))
    | some (.tables ts) => match ts.getLast? with
      | some t => put fs k (.tables (ts.dropLast ++ [modifyAt t ks f]))
      | none => fs
    | _ => fs

end TomlFields

/-- A document while its lines are put together. -/
structure TomlTree where
  fields : TomlFields
  /-- Tables that no header has opened yet, by their paths as text. -/
  implied : List String
  /-- Arrays, by their paths as text. -/
  arrays : List String
  /-- All keys in their order. -/
  keys : List TomlPath
  deriving Repr

/-- The fields that pairs give a table on their own: each value under the last
part of its key. -/
def TomlFields.ofPairs (nodes : List (TomlPath × TomlNode)) : TomlFields :=
  nodes.foldl (fun fs p => match p.1.getLast? with
    | some k => fs.put k p.2
    | none => fs) []

mutual

/-- A value on its own. -/
def TomlNode.ofValue : TomlValue → TomlNode
  | .inline pairs => .table (TomlFields.ofPairs (TomlNode.ofPairs pairs))
  | v => .leaf v

def TomlNode.ofPairs : List (TomlPath × TomlValue) → List (TomlPath × TomlNode)
  | [] => []
  | (path, v) :: rest => (path, TomlNode.ofValue v) :: TomlNode.ofPairs rest

end

namespace TomlTree

def empty : TomlTree := ⟨[], [], [], []⟩

def imply (t : TomlTree) (path : TomlPath) : TomlTree :=
  { t with implied := path.render :: t.implied }

def settle (t : TomlTree) (path : TomlPath) : TomlTree :=
  { t with implied := t.implied.filter fun p => p != path.render }

def markArray (t : TomlTree) (path : TomlPath) : TomlTree :=
  { t with arrays := path.render :: t.arrays }

def unmarkArray (t : TomlTree) (path : TomlPath) : TomlTree :=
  { t with arrays := t.arrays.filter fun p => p != path.render }

def addKey (t : TomlTree) (path : TomlPath) : TomlTree := { t with keys := t.keys ++ [path] }

/-- Gives the key of a table its value. A key that is there already is refused,
unless it is an array, which is replaced, or an implied table, which stays. -/
def define (t : TomlTree) (context : TomlPath) (key : String) (n : TomlNode) :
    Option TomlTree :=
  let path : TomlPath := context ++ [key]
  let write (t : TomlTree) : TomlTree :=
    { t with fields := t.fields.modifyAt context fun fs => fs.put key n }
  match t.fields.at? context with
  | none => none
  | some fs =>
    if (List.lookup key fs).isNone then some (write t)
    else if t.arrays.contains path.render then some (write (t.settle path))
    else if t.implied.contains path.render then some (t.settle path)
    else none

/-- Makes sure that there are tables along a path, from the table `context`
on. -/
def reach (t : TomlTree) (context : TomlPath) : TomlPath → Option TomlTree
  | [] => some t
  | k :: ks => match t.fields.at? context with
    | none => none
    | some fs => match List.lookup k fs with
      | none =>
        let t := t.imply (context ++ [k])
        reach { t with fields := t.fields.modifyAt context fun fs => fs.put k (.table []) }
          (context ++ [k]) ks
      | some (.leaf _) => none
      | some _ => reach t (context ++ [k]) ks

/-- Opens one more table of a list of tables. -/
def append (t : TomlTree) (context : TomlPath) (key : String) : Option TomlTree :=
  match t.fields.at? context with
  | none => none
  | some fs =>
    let write (ts : List TomlFields) : Option TomlTree :=
      some { t with fields := t.fields.modifyAt context fun fs => fs.put key (.tables ts) }
    match List.lookup key fs with
    | none => write [[]]
    | some (.tables ts) => write (ts ++ [[]])
    | some _ => none

/-- Opens the table at a path. -/
def openTable (t : TomlTree) (path : TomlPath) (repeated : Bool) : Option TomlTree :=
  match path.getLast? with
  | none => none
  | some key => match t.reach [] path.dropLast with
    | none => none
    | some t =>
      if repeated then t.append path.dropLast key else t.define path.dropLast key (.table [])

/-- Opens the tables that a dotted key goes through, and answers with the last
one and the key in it. -/
def openDotted (t : TomlTree) (context : TomlPath) :
    TomlPath → Option (TomlTree × TomlPath × String)
  | [] => none
  | [key] => some (t, context, key)
  | k :: ks =>
    let path := context ++ [k]
    match (t.imply path).openTable path false with
    | none => none
    | some t => openDotted t path ks

mutual

/-- Gives a key its value. -/
def assign (t : TomlTree) (context : TomlPath) (key : String) : TomlValue → Option TomlTree
  | .inline pairs =>
    let path := context ++ [key]
    match (t.imply path).openTable path false with
    | none => none
    | some t => match assignPairs t path pairs with
      | none => none
      | some t => (t.define context key (.ofValue (.inline pairs))).map fun t =>
        t.unmarkArray path
  | .array items =>
    match assignItems (t.markArray (context ++ [key])) context key items with
    | none => none
    | some t => t.define context key (.leaf (.array items))
  | v => (t.define context key (.leaf v)).map fun t => t.unmarkArray (context ++ [key])

/-- Takes in an item of an array: its tables, and those of arrays in it. -/
def assignItem (t : TomlTree) (context : TomlPath) (key : String) : TomlValue → Option TomlTree
  | .inline pairs =>
    let path := context ++ [key]
    match (t.imply path).openTable path true with
    | none => none
    | some t => assignPairs t path pairs
  | .array items => assignItems t context key items
  | _ => some t

def assignItems (t : TomlTree) (context : TomlPath) (key : String) :
    List TomlValue → Option TomlTree
  | [] => some t
  | v :: vs => match assignItem t context key v with
    | none => none
    | some t => assignItems t context key vs

/-- Gives dotted keys their values one after another. -/
def assignPairs (t : TomlTree) (context : TomlPath) :
    List (TomlPath × TomlValue) → Option TomlTree
  | [] => some t
  | (path, v) :: rest => match t.openDotted context path with
    | none => none
    | some (t, inner, key) => match assign t inner key v with
      | none => none
      | some t => assignPairs (t.addKey (inner ++ [key])) context rest

end

/-- Takes in lines; pairs belong to the table that the last header opened. What a
header names is no array any more. -/
def addLines (t : TomlTree) (context : TomlPath) : List TomlLine → Option TomlTree
  | [] => some t
  | .header repeated path :: rest => match t.openTable path repeated with
    | none => none
    | some t => addLines ((t.unmarkArray path).addKey path) path rest
  | .pair path v :: rest => match t.assignPairs context [(path, v)] with
    | none => none
    | some t => addLines t context rest

def ofLines? (lines : List TomlLine) : Option TomlTree := empty.addLines [] lines

end TomlTree

end AffineRelations
