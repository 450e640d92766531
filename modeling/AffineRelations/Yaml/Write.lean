import AffineRelations.Yaml.Cursor
import AffineRelations.Yaml.Meaning

/-!
# Writing YAML scalars

A text is written plain if it stands for itself and no character in it has a
meaning of its own in a block; otherwise in single quotes. A text that stands
for something else, or that has characters which cannot be printed, is written
in double quotes. A text of several lines is written as a literal block.
-/
namespace AffineRelations.Yaml

/-- The characters that are written as they are. -/
def isPrintable (c : Char) : Bool :=
  let n := c.toNat
  n == 0xA || (0x20 ≤ n && n ≤ 0x7E) || (0xA0 ≤ n && n ≤ 0xD7FF)
    || (0xE000 ≤ n && n ≤ 0xFFFD && n != 0xFEFF)

/-- Whether a blank or the end of the text comes next. -/
def blankNext : List Char → Bool
  | [] => true
  | c :: _ => c == ' ' || c == '\t'

/-- Whether the first character has a meaning in a block. -/
def indicatorFirst : List Char → Bool
  | [] => false
  | c :: cs =>
    if c == '?' || c == ':' || c == '-' then blankNext cs
    else ['#', ',', '[', ']', '\x7b', '\x7d', '&', '*', '!', '|', '>', '\'', '"', '%', '@',
      Char.ofNat 0x60].contains c

/-- Whether a later character has a meaning in a block: a colon before a blank,
or a number sign after one. -/
def indicatorWithin : (previous : Char) → List Char → Bool
  | _, [] => false
  | p, c :: cs =>
    (c == ':' && blankNext cs) || (c == '#' && (p == ' ' || p == '\t' || isBreak p)) ||
      indicatorWithin c cs

/-- Whether a text starts like the marker of a document. -/
def markerFirst (cs : List Char) : Bool :=
  cs.take 3 == ['-', '-', '-'] || cs.take 3 == ['.', '.', '.']

def hasIndicator (cs : List Char) : Bool :=
  markerFirst cs || indicatorFirst cs || match cs with
    | c :: rest => indicatorWithin c rest
    | [] => false

def hasSpaceAtEnd (cs : List Char) : Bool := cs.getLast? == some ' '

/-- Whether a blank stands at the end of a line. -/
def hasSpaceBeforeBreak : List Char → Bool
  | [] => false
  | c :: cs => (c == ' ' && cs.head?.any isBreak) || hasSpaceBeforeBreak cs

/-- Whether a blank stands at the beginning of a line that is not the first. -/
def hasSpaceAfterBreak : List Char → Bool
  | [] => false
  | c :: cs => (isBreak c && cs.head? == some ' ') || hasSpaceAfterBreak cs

/-- Whether a text can be written plain in a block. -/
def plainAllowed (cs : List Char) : Bool :=
  cs.all (fun c => isPrintable c && !isBreak c) && cs.head? != some ' ' && !hasSpaceAtEnd cs &&
    !hasIndicator cs

/-- Whether a text can be written in single quotes. -/
def singleAllowed (cs : List Char) : Bool :=
  cs.all isPrintable && !hasSpaceBeforeBreak cs && !hasSpaceAfterBreak cs

/-- Whether a text can be written as a literal block. -/
def literalAllowed (cs : List Char) : Bool :=
  cs.all (fun c => isPrintable c || c == '\t') && !hasSpaceAtEnd cs && !hasSpaceBeforeBreak cs

/-- The hexadecimal digits of a number in capitals, with leading zeros. -/
def capitalHex (n : Nat) : (count : Nat) → List Char
  | 0 => []
  | k + 1 => capitalHex (n / 16) k ++ [(Nat.digitChar (n % 16)).toUpper]

/-- The escapes of one letter. -/
def letterEscapes : List (Nat × Char) :=
  [(0, '0'), (7, 'a'), (8, 'b'), (9, 't'), (10, 'n'), (11, 'v'), (12, 'f'), (13, 'r'), (27, 'e'),
   (34, '"'), (92, '\\'), (0x85, 'N'), (0xA0, '_'), (0x2028, 'L'), (0x2029, 'P')]

/-- A character by its escape. -/
def escaped (c : Char) : List Char :=
  let n := c.toNat
  match letterEscapes.lookup n with
  | some x => ['\\', x]
  | none =>
    if n ≤ 0xFF then '\\' :: 'x' :: capitalHex n 2
    else if n ≤ 0xFFFF then '\\' :: 'u' :: capitalHex n 4
    else '\\' :: 'U' :: capitalHex n 8

/-- A character in double quotes. -/
def doubleChar (c : Char) : List Char :=
  if isPrintable c && !isBreak c && c != '"' && c != '\\' then [c] else escaped c

/-- A text in double quotes. Behind a byte order mark at its beginning all
characters are escaped. -/
def doubleQuoted (cs : List Char) : String :=
  let write := if cs.head?.any isByteOrderMark then escaped else doubleChar
  String.ofList ('"' :: cs.flatMap write ++ ['"'])

/-- Lines of text; all but the first are indented, and empty lines are not. -/
def indented (indent : Nat) : (lineStart : Bool) → List Char → List Char
  | _, [] => []
  | lineStart, c :: cs =>
    if isBreak c then c :: indented indent true cs
    else (if lineStart then List.replicate indent ' ' else []) ++ c :: indented indent false cs

def singleQuoted (indent : Nat) (cs : List Char) : String :=
  let doubled := cs.flatMap fun c => if c = '\'' then ['\'', '\''] else [c]
  String.ofList ('\'' :: indented indent false doubled ++ ['\''])

/-- What the header of a literal block says about line ends at the end of the
text: `-` for none, `+` for more than one. -/
def chompMark (cs : List Char) : String :=
  match cs.reverse with
  | [] => "-"
  | [c] => if isBreak c then "+" else "-"
  | c :: d :: _ => if isBreak c then (if isBreak d then "+" else "") else "-"

/-- A literal block without the line end behind it. A line end at the beginning
of the text ends the header. -/
def literalBlock (indent : Nat) (cs : List Char) : String :=
  let breakFirst := cs.head?.any isBreak
  let hint := if breakFirst || cs.head? == some ' ' then "2" else ""
  "|" ++ hint ++ chompMark cs ++ (if breakFirst then "" else "\n") ++
    String.ofList (indented indent true cs)

/-- A text as a value in a block and the line end behind it; further lines are
indented by `indent` columns. -/
def scalarLine (indent : Nat) (s : String) : String :=
  let cs := s.toList
  if cs.contains '\n' then
    if literalAllowed cs then
      literalBlock indent cs ++ (if cs.getLast?.any isBreak then "" else "\n")
    else doubleQuoted cs ++ "\n"
  else if standsForText s then
    if plainAllowed cs then s ++ "\n"
    else if singleAllowed cs then singleQuoted indent cs ++ "\n"
    else doubleQuoted cs ++ "\n"
  else doubleQuoted cs ++ "\n"

end AffineRelations.Yaml
