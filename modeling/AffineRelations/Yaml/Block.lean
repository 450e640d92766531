import AffineRelations.Expr.Literal
import AffineRelations.Yaml.Cursor

/-!
# YAML block scalars

A block scalar is the lines below its header that are indented far enough. In a
literal block line ends stand for themselves; in a folded block a single line
end between two lines that do not start with a blank is read as a blank. The
header may give the indentation as a digit and say what happens to the line
ends at the end: a minus drops them and a plus keeps them all.
-/
namespace AffineRelations.Yaml

/-- What happens to the line ends at the end: one is kept if there is no mark. -/
inductive Chomping where
  | drop | one | keep
  deriving DecidableEq, Repr

def chomping? (c : Cursor) : Option Chomping :=
  match c.peek? with
  | some '+' => some .keep
  | some '-' => some .drop
  | _ => none

/-- The digit for the indentation; 0 if there is none, which is refused as a
digit. -/
def indentDigit? (c : Cursor) : Option (Nat × Cursor) :=
  match c.peek? with
  | some x =>
    if isDecimalChar x then (if x = '0' then none else some (digitValue x, c.next))
    else some (0, c)
  | none => some (0, c)

/-- The marks of a header, in either order. -/
def blockMarks? (c : Cursor) : Option (Chomping × Nat × Cursor) :=
  match chomping? c with
  | some chomping => (indentDigit? c.next).map fun (n, c) => (chomping, n, c)
  | none => (indentDigit? c).map fun (n, after) =>
    match if n = 0 then none else chomping? after with
    | some chomping => (chomping, n, after.next)
    | none => (.one, n, after)

/-- The line ends in front of a line with content, and the widest indentation
among them. An indentation of 0 is not known yet. A tab must not stand in for
it. -/
def emptyLines (indent : Nat) : (fuel : Nat) → Cursor → (read : List Char) → (widest : Nat) →
    Option (List Char × Nat × Cursor)
  | 0, _, _, _ => none
  | fuel + 1, c, read, widest =>
    let spaces := (c.chars.takeWhile (· == ' ')).length
    let c := c.drop (if indent = 0 then spaces else min spaces (indent - c.col))
    let widest := max widest c.col
    if (indent == 0 || c.col < indent) && c.peek? == some '\t' then none
    else if c.atBreak then
      let (b, c) := c.takeBreak
      emptyLines indent fuel c (read ++ [b]) widest
    else some (read, widest, c)

/-- What has been read of a block: its text, the last line end, the line ends of
empty lines behind it, and whether the last line started with a blank. -/
structure BlockText where
  text : List Char
  last : List Char
  empty : List Char
  blankFirst : Bool
  deriving Repr

/-- The text in front of a further line. -/
def BlockText.joined (b : BlockText) (literal blankFirst : Bool) : List Char :=
  if !literal && !b.blankFirst && !blankFirst && b.last == ['\n'] then
    b.text ++ (if b.empty.isEmpty then [' '] else b.empty)
  else b.text ++ b.last ++ b.empty

/-- Reads lines with content. -/
def blockLines (literal : Bool) (indent : Nat) :
    (fuel : Nat) → Cursor → BlockText → Option (BlockText × Cursor)
  | 0, _, _ => none
  | fuel + 1, c, b =>
    if c.col != indent || c.chars.isEmpty then some (b, c)
    else do
      let blank := c.atBlank
      let line := c.chars.takeWhile fun x => !isBreak x
      let stop := c.lineEnd
      let (last, below) := if stop.atBreak then ([stop.takeBreak.1], stop.nextLine) else ([], stop)
      let (empty, _, below) ← emptyLines indent (fuel + 1) below [] 0
      blockLines literal indent fuel below
        ⟨b.joined literal blank ++ line, last, empty, blank⟩

/-- A block scalar of less than `fuel` lines, from its mark on, inside a block
with the given indentation. -/
def block? (literal : Bool) (outer : Int) (fuel : Nat) (c : Cursor) :
    Option (String × Cursor) := do
  let (chomping, digit, c) ← blockMarks? c.next
  let c ← c.restOfLine?
  let given := if digit = 0 then 0 else digit + outer.toNat
  let (empty, widest, c) ← emptyLines given fuel c [] 0
  let indent := if given = 0 then max (max widest (outer + 1).toNat) 1 else given
  let (b, c) ← blockLines literal indent fuel c ⟨[], [], empty, false⟩
  let tail := match chomping with
    | .drop => []
    | .one => b.last
    | .keep => b.last ++ b.empty
  return (String.ofList (b.text ++ tail), c)

end AffineRelations.Yaml
