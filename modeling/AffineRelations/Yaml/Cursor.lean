/-!
# Characters and places of a YAML text

A text may hold certain characters, and some of them are blanks and line ends.
A cursor holds the characters that are left and says how many have been passed
and in which line and column the next one stands. It also counts the line ends
since the last character that was no blank.
-/
namespace AffineRelations.Yaml

/-- Goes on only if the condition holds. -/
def require (b : Bool) : Option Unit := if b then some () else none

/-- The characters that a YAML text may hold. -/
def isAllowed (c : Char) : Bool :=
  let n := c.toNat
  n == 0x9 || n == 0xA || n == 0xD || (0x20 ≤ n && n ≤ 0x7E) || n == 0x85
    || (0xA0 ≤ n && n ≤ 0xD7FF) || (0xE000 ≤ n && n ≤ 0xFFFD) || 0x10000 ≤ n

def isBlankChar (c : Char) : Bool := c == ' ' || c == '\t'

/-- Line and paragraph separators: line ends that are kept as they are. -/
def isSeparator (c : Char) : Bool := c.toNat == 0x2028 || c.toNat == 0x2029

def isBreak (c : Char) : Bool := c == '\n' || c == '\r' || c.toNat == 0x85 || isSeparator c

def isByteOrderMark (c : Char) : Bool := c.toNat == 0xFEFF

/-- A blank, a line end or the end of the text. -/
def blankOrEnd : List Char → Bool
  | [] => true
  | c :: _ => isBlankChar c || isBreak c

/-- The characters of anchors, of directives and of the handles of tags. -/
def isNameChar (c : Char) : Bool :=
  ('a' ≤ c && c ≤ 'z') || ('A' ≤ c && c ≤ 'Z') || ('0' ≤ c && c ≤ '9') || c == '_' || c == '-'

structure Cursor where
  chars : List Char
  index : Nat
  line : Nat
  col : Nat
  breaks : Nat
  deriving Repr

namespace Cursor

def ofChars (cs : List Char) : Cursor := ⟨cs, 0, 0, 0, 0⟩

def peek? (c : Cursor) : Option Char := c.chars.head?

/-- The cursor behind the next character, which is no line end. -/
def next (c : Cursor) : Cursor :=
  match c.chars with
  | [] => c
  | x :: cs => ⟨cs, c.index + 1, c.line, c.col + 1, if isBlankChar x then c.breaks else 0⟩

/-- The cursor `n` characters further on. -/
def drop (c : Cursor) : (n : Nat) → Cursor
  | 0 => c
  | n + 1 => c.next.drop n

/-- A line end and the cursor behind it. All line ends but the separators are
read as line feeds. -/
def takeBreak (c : Cursor) : Char × Cursor :=
  match c.chars with
  | [] => ('\n', c)
  | '\r' :: '\n' :: cs => ('\n', ⟨cs, c.index + 2, c.line + 1, 0, c.breaks + 1⟩)
  | x :: cs => (if isSeparator x then x else '\n', ⟨cs, c.index + 1, c.line + 1, 0, c.breaks + 1⟩)

/-- The cursor behind the next line end. -/
def nextLine (c : Cursor) : Cursor := c.takeBreak.2

def atBreak (c : Cursor) : Bool := c.peek?.any isBreak

def atBlank (c : Cursor) : Bool := c.peek?.any isBlankChar

/-- Skips characters of a kind on the line. -/
def skipWhile (c : Cursor) (p : Char → Bool) : Cursor := c.drop (c.chars.takeWhile p).length

/-- The end of the line. -/
def lineEnd (c : Cursor) : Cursor := c.skipWhile fun x => !isBreak x

/-- The cursor behind a line that has nothing more than blanks and a comment. -/
def restOfLine? (c : Cursor) : Option Cursor :=
  let c := c.skipWhile isBlankChar
  let c := if c.peek? == some '#' then c.lineEnd else c
  if c.chars.isEmpty then some c else if c.atBreak then some c.nextLine else none

/-- Whether a line starts here with three times `x` and nothing glued to it. -/
def atMarker (c : Cursor) (x : Char) : Bool :=
  c.col == 0 && match c.chars with
    | a :: b :: d :: cs => a == x && b == x && d == x && blankOrEnd cs
    | _ => false

/-- Whether a document starts or ends here. -/
def atDocumentMarker (c : Cursor) : Bool := c.atMarker '-' || c.atMarker '.'

/-- How far comments are looked for. -/
def commentReach : Nat := 512

/-- Passes characters and line ends up to an index, at most `fuel` of them. -/
def passTo (target : Nat) : (fuel : Nat) → Cursor → Cursor
  | 0, c => c
  | fuel + 1, c =>
    if target ≤ c.index then c
    else passTo target fuel (if c.atBreak then c.nextLine else c.next)

/-- Where the next comment starts, seen from the end of a comment, if there are
only blanks and empty lines between. -/
def nextComment? (c : Cursor) : Option Nat :=
  let between := (c.chars.drop 1).takeWhile fun x => isBlankChar x || isBreak x
  let ahead := between.length + 1
  if ahead < commentReach && c.chars[ahead]? == some '#' then some (c.index + ahead) else none

/-- Skips a comment and those that follow it, and stops at the end of the last
line of them. -/
def skipComments : (fuel : Nat) → Cursor → Cursor
  | 0, c => c
  | fuel + 1, c =>
    let stop := c.lineEnd
    match stop.nextComment? with
    | some i => skipComments fuel (stop.passTo i commentReach)
    | none => stop

/-- Skips a comment behind something on the same line, with the blanks in front
of it. -/
def skipLineComment (c : Cursor) : Cursor :=
  let blanks := (c.chars.takeWhile isBlankChar).length
  if c.breaks == 0 && blanks < commentReach && c.chars[blanks]? == some '#' then c.lineEnd else c

end Cursor

end AffineRelations.Yaml
