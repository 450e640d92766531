import AffineRelations.Expr.Literal
import AffineRelations.Text.Utf8
import AffineRelations.Yaml.Cursor

/-!
# Anchors, tags and directives

An anchor names a node, and a reference stands for the node of that name. A tag
says what a node is; it starts with a handle, which stands for the beginning of
the full tag. Directives stand in front of a document: the version of the
language, and the meaning of handles.
-/
namespace AffineRelations.Yaml

/-- The name of an anchor or a reference, from its mark on. -/
def anchorName? (c : Cursor) : Option (String × Cursor) :=
  let name := c.next.chars.takeWhile isNameChar
  let stop := c.next.drop name.length
  if name.isEmpty then none
  else if blankOrEnd stop.chars ||
      stop.peek?.any (['?', ':', ',', ']', '\x7d', '%', '@', Char.ofNat 0x60].contains ·) then
    some (String.ofList name, stop)
  else none

/-- The characters of tags behind their handles. -/
def isTagChar (c : Char) : Bool :=
  isNameChar c || [';', '/', '?', ':', '@', '&', '=', '+', '$', ',', '.', '!', '~', '*', '\'',
    '(', ')', '[', ']', '%'].contains c

/-- A byte written as a percent sign and two hexadecimal digits. -/
def percentByte? : List Char → Option UInt8
  | '%' :: a :: b :: _ =>
    if isHexChar a && isHexChar b then some (UInt8.ofNat (digitsValue 16 [a, b])) else none
  | _ => none

/-- The number of bytes of the character that a byte starts. -/
def byteCount? (b : UInt8) : Option Nat :=
  if b < 0x80 then some 1
  else if 0xC0 ≤ b && b < 0xE0 then some 2
  else if 0xE0 ≤ b && b < 0xF0 then some 3
  else if 0xF0 ≤ b && b < 0xF8 then some 4
  else none

/-- The bytes of `n` percent signs. -/
def percentBytes? : (n : Nat) → List Char → Option (List UInt8)
  | 0, _ => some []
  | n + 1, cs => do
    let b ← percentByte? cs
    let more ← percentBytes? n (cs.drop 3)
    return b :: more

/-- A character written by percent signs, and the number of its bytes. -/
def percentChar? (cs : List Char) : Option (Char × Nat) := do
  let first ← percentByte? cs
  let n ← byteCount? first
  let bytes ← percentBytes? n cs
  require ((bytes.drop 1).all fun b => (Text.continuation? b).isSome)
  return (((Text.decodeFront? bytes).map (·.1)).getD (Char.ofNat 0xFFFD), n)

/-- The part of a tag behind its handle. -/
def tagRest? : (fuel : Nat) → Cursor → (read : List Char) → Option (List Char × Cursor)
  | 0, _, _ => none
  | fuel + 1, c, read => match c.peek? with
    | some '%' => do
      let (x, n) ← percentChar? c.chars
      tagRest? fuel (c.drop (3 * n)) (read ++ [x])
    | some x => if isTagChar x then tagRest? fuel c.next (read ++ [x]) else some (read, c)
    | none => some (read, c)

/-- A handle, or what looks like one at first: an exclamation mark, a name and
perhaps a second mark. -/
def handle? (c : Cursor) : Option (List Char × Cursor) :=
  if c.peek? == some '!' then
    let name := c.next.chars.takeWhile isNameChar
    let stop := c.next.drop name.length
    if stop.peek? == some '!' then some ('!' :: name ++ ['!'], stop.next)
    else some ('!' :: name, stop)
  else none

/-- A tag of less than `fuel` characters as handle and rest. The handle is empty
for a tag in full. -/
def tag? (fuel : Nat) (c : Cursor) : Option (String × String × Cursor) := do
  let (handle, rest, stop) ←
    if c.chars.take 2 == ['!', '<'] then do
      let (rest, stop) ← tagRest? fuel (c.drop 2) []
      require (!rest.isEmpty && stop.peek? == some '>')
      pure ([], rest, stop.next)
    else do
      let (handle, stop) ← handle? c
      if 1 < handle.length && handle.getLast? == some '!' then do
        let (rest, stop) ← tagRest? fuel stop []
        require (!rest.isEmpty)
        pure (handle, rest, stop)
      else do
        let (rest, stop) ← tagRest? fuel stop (handle.drop 1)
        pure (if rest.isEmpty then ([], ['!'], stop) else (['!'], rest, stop))
  require (blankOrEnd stop.chars)
  return (String.ofList handle, String.ofList rest, stop)

/-- A directive: the version of the language, or what a handle stands for. -/
inductive Directive where
  | version (major minor : Nat)
  | handle (name meaning : String)
  deriving DecidableEq, Repr

/-- A number of one or two digits. -/
def versionPart? (c : Cursor) : Option (Nat × Cursor) :=
  let digits := c.chars.takeWhile isDecimalChar
  if digits.isEmpty || 2 < digits.length then none
  else some (digitsValue 10 digits, c.drop digits.length)

def version? (c : Cursor) : Option (Directive × Cursor) := do
  let (major, c) ← versionPart? (c.skipWhile isBlankChar)
  require (c.peek? == some '.')
  let (minor, c) ← versionPart? c.next
  return (.version major minor, c)

def handleMeaning? (fuel : Nat) (c : Cursor) : Option (Directive × Cursor) := do
  let (name, c) ← handle? (c.skipWhile isBlankChar)
  require (name.length == 1 || name.getLast? == some '!')
  require c.atBlank
  let (meaning, c) ← tagRest? fuel (c.skipWhile isBlankChar) []
  require (!meaning.isEmpty && blankOrEnd c.chars)
  return (.handle (String.ofList name) (String.ofList meaning), c)

/-- A directive of less than `fuel` characters, from its percent sign on. -/
def directive? (fuel : Nat) (c : Cursor) : Option (Directive × Cursor) := do
  let name := c.next.chars.takeWhile isNameChar
  let c := c.next.drop name.length
  require (blankOrEnd c.chars)
  let (d, c) ← if name = ['Y', 'A', 'M', 'L'] then version? c
    else if name = ['T', 'A', 'G'] then handleMeaning? fuel c
    else none
  let c ← c.restOfLine?
  return (d, c)

end AffineRelations.Yaml
