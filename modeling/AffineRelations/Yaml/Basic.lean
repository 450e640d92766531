import AffineRelations.Yaml.Meaning

/-!
# YAML values

A value is a scalar, a sequence, a mapping, or a reference to a value with an
anchor. Besides its text a scalar has a kind, which its quotes, its tag and its
text decide.
-/
namespace AffineRelations

/-- What a scalar is. -/
inductive ScalarKind where
  | text
  | null
  /-- A number, a truth value or a date. -/
  | typed
  /-- The key that merges other mappings into its own. -/
  | merge
  /-- The tag does not fit the text. -/
  | mistagged
  deriving DecidableEq, Repr

inductive Yaml where
  | scalar (kind : ScalarKind) (text : String)
  | seq (items : List Yaml)
  | map (pairs : List (Yaml × Yaml))
  | reference (name : String) (target : Yaml)
  deriving Repr

namespace Yaml

/-- The value of a node without content. -/
def null : Yaml := .scalar .null ""

/-- The value that a reference stands for. -/
def target : Yaml → Yaml
  | .reference _ y => y
  | y => y

def isNull (y : Yaml) : Bool :=
  match y.target with
  | .scalar .null _ => true
  | _ => false

/-- Whether a key merges other mappings. -/
def isMerge : Yaml → Bool
  | .scalar .merge _ => true
  | _ => false

/-- The text of a key, if it is neither null nor a number, a truth value or a
date. -/
def keyName? (y : Yaml) : Option String :=
  match y.target with
  | .scalar .text s | .scalar .merge s => some s
  | _ => none

/-- A text; null is the empty text. -/
def string? (y : Yaml) : Option String :=
  match y.target with
  | .scalar .null _ => some ""
  | .scalar .mistagged _ => none
  | .scalar _ s => some s
  | _ => none

/-- Kind and text: two keys of one mapping must differ in it. -/
def keyText : Yaml → Nat × String
  | .scalar _ s => (0, s)
  | .seq _ => (1, "")
  | .map _ => (2, "")
  | .reference name _ => (3, name)

/-- The keys of a mapping are distinct. -/
def distinctKeys : List (Yaml × Yaml) → Bool
  | [] => true
  | (k, _) :: rest => rest.all (fun p => p.1.keyText != k.keyText) && distinctKeys rest

/-- The kind of a scalar without a tag. -/
def untaggedKind (plain : Bool) (text : String) : ScalarKind :=
  if !plain then .text
  else if text = "<<" then .merge
  else match meaning text with
    | .text => .text
    | .null => .null
    | _ => .typed

/-- Tags of the language itself in full. -/
def standardTag (name : String) : String := "tag:yaml.org,2002:" ++ name

/-- The kind that a tag demands of a text, if it demands one. -/
def demanded? (tag : String) : Option (List Meaning) :=
  if tag = standardTag "null" then some [.null]
  else if tag = standardTag "bool" then some [.truth]
  else if tag = standardTag "int" then some [.integer]
  else if tag = standardTag "float" then some [.fraction, .integer]
  else if tag = standardTag "timestamp" then some [.moment]
  else none

/-- What a text means under a tag. Only the tag for dates makes a date of it. -/
def meaningUnder (tag text : String) : Meaning :=
  match meaning text with
  | .moment => if tag = standardTag "timestamp" then .moment else .text
  | m => m

/-- A scalar with a tag; the tags `!` and none leave the kind to the text. -/
def ofScalar (tag : String) (plain : Bool) (text : String) : Yaml :=
  if tag = "" ∨ tag = "!" then .scalar (untaggedKind plain text) text
  else if tag = standardTag "merge" ∧ text = "<<" then .scalar .merge text
  else match demanded? tag with
    | none => .scalar .text text
    | some ms =>
      if ms.contains (meaningUnder tag text) then
        .scalar (if ms.contains .null then .null else .typed) text
      else .scalar .mistagged text

end Yaml

end AffineRelations
