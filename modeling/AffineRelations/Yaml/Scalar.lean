import AffineRelations.Expr.Literal
import AffineRelations.Yaml.Cursor

/-!
# YAML scalars on lines

Plain and quoted scalars may run over several lines. A single line end between
two words is read as a blank, and further ones stand for themselves; a line end
that is a separator always does. Blanks around line ends do not count.
-/
namespace AffineRelations.Yaml

/-- What stands between two words: blanks on one line, or a line end with the
further ones. A line end behind a backslash does not count itself. -/
inductive Gap where
  | blanks (cs : List Char)
  | lines (first : Option Char) (more : List Char)
  deriving Repr

namespace Gap

def none : Gap := .blanks []

def isOpen : Gap → Bool
  | .blanks [] => false
  | _ => true

def afterBlank (g : Gap) (c : Char) : Gap :=
  match g with
  | .blanks cs => .blanks (cs ++ [c])
  | g => g

def afterBreak (g : Gap) (c : Char) : Gap :=
  match g with
  | .blanks _ => .lines (some c) []
  | .lines first more => .lines first (more ++ [c])

def hasBreak : Gap → Bool
  | .blanks _ => false
  | .lines .. => true

/-- The characters that a gap is read as. -/
def chars : Gap → List Char
  | .blanks cs => cs
  | .lines (some '\n') [] => [' ']
  | .lines (some '\n') more => more
  | .lines (some c) more => c :: more
  | .lines Option.none more => more

/-- Text, the last character first, with a gap and a further character behind
it. -/
def before (g : Gap) (c : Char) (read : List Char) : List Char := c :: (g.chars.reverse ++ read)

end Gap

/-- Whether a plain scalar ends before these characters. -/
def endsPlain (flow : Bool) : List Char → Bool
  | [] => true
  | c :: cs =>
    (c == ':' && blankOrEnd cs) ||
      (flow && [',', '?', '[', ']', '\x7b', '\x7d'].contains c)

/-- Reads a plain scalar: `read` is its text so far, the last character first,
and `gap` what has been passed since. A line that continues the scalar has to be
indented by `indent` columns at least, unless a flow collection is open. A tab
must not stand in for that. The gap at the end is passed, and the last answer says whether there is a
line end in it. -/
def plainFrom (flow : Bool) (indent : Nat) :
    (fuel : Nat) → (c : Cursor) → (read : List Char) → (gap : Gap) →
    Option (List Char × Cursor × Bool)
  | 0, _, _, _ => none
  | fuel + 1, c, read, gap =>
    match c.chars with
    | [] => some (read.reverse, c, gap.hasBreak)
    | x :: _ =>
      if isBlankChar x then
        if gap.hasBreak && c.col < indent && x == '\t' then none
        else plainFrom flow indent fuel c.next read (gap.afterBlank x)
      else if isBreak x then
        let (b, c) := c.takeBreak
        plainFrom flow indent fuel c read (gap.afterBreak b)
      else if (gap.isOpen && ((!flow && c.col < indent) || c.atDocumentMarker || x == '#')) ||
          endsPlain flow c.chars then some (read.reverse, c, gap.hasBreak)
      else plainFrom flow indent fuel c.next (gap.before x read) .none

/-- Whether a plain scalar can start with these characters. -/
def startsPlain (flow : Bool) : List Char → Bool
  | [] => false
  | c :: cs =>
    if c == '-' then !(cs.head?.any isBlankChar)
    else if c == '?' || c == ':' then !flow && !(blankOrEnd cs)
    else !(isBlankChar c || isBreak c || [',', '[', ']', '\x7b', '\x7d', '#', '&', '*', '!', '|',
      '>', '\'', '"', '%', '@', Char.ofNat 0x60].contains c)

/-- The text that ends with a gap. -/
def closed (read : List Char) (gap : Gap) : List Char := (gap.chars.reverse ++ read).reverse

/-- Reads a single-quoted scalar behind its opening quote. -/
def singleFrom : (fuel : Nat) → (c : Cursor) → (read : List Char) → (gap : Gap) →
    Option (List Char × Cursor)
  | 0, _, _, _ => none
  | fuel + 1, c, read, gap =>
    if c.atDocumentMarker then none
    else match c.chars with
      | [] => none
      | '\'' :: '\'' :: _ => singleFrom fuel (c.drop 2) (gap.before '\'' read) .none
      | '\'' :: _ => some (closed read gap, c.next)
      | x :: _ =>
        if isBlankChar x then singleFrom fuel c.next read (gap.afterBlank x)
        else if isBreak x then
          let (b, c) := c.takeBreak
          singleFrom fuel c read (gap.afterBreak b)
        else singleFrom fuel c.next (gap.before x read) .none

/-- The escapes of one letter. -/
def escapes : List (Char × Nat) :=
  [('0', 0), ('a', 7), ('b', 8), ('t', 9), ('\t', 9), ('n', 10), ('v', 11), ('f', 12), ('r', 13),
   ('e', 27), (' ', 32), ('"', 34), ('\'', 39), ('\\', 92), ('N', 0x85), ('_', 0xA0),
   ('L', 0x2028), ('P', 0x2029)]

/-- The number of hexadecimal digits behind the escape letters that take them. -/
def escapeDigits? (c : Char) : Option Nat :=
  if c = 'x' then some 2 else if c = 'u' then some 4 else if c = 'U' then some 8 else none

/-- The character that an escape denotes, and the number of characters that it
takes behind the backslash. -/
def escape? : List Char → Option (Char × Nat)
  | [] => none
  | x :: cs => match escapes.lookup x with
    | some n => some (Char.ofNat n, 1)
    | none => do
      let k ← escapeDigits? x
      let digits := cs.take k
      require (digits.length == k && digits.all isHexChar)
      let n := digitsValue 16 digits
      require (n < 0xD800 || (0xDFFF < n && n < 0x110000))
      return (Char.ofNat n, k + 1)

/-- Reads a double-quoted scalar behind its opening quote. -/
def doubleFrom : (fuel : Nat) → (c : Cursor) → (read : List Char) → (gap : Gap) →
    Option (List Char × Cursor)
  | 0, _, _, _ => none
  | fuel + 1, c, read, gap =>
    if c.atDocumentMarker then none
    else match c.chars with
      | [] => none
      | '"' :: _ => some (closed read gap, c.next)
      | '\\' :: cs =>
        if cs.head?.any isBreak then
          doubleFrom fuel c.next.nextLine (gap.chars.reverse ++ read) (.lines Option.none [])
        else do
          let (x, n) ← escape? cs
          doubleFrom fuel (c.drop (n + 1)) (gap.before x read) .none
      | x :: _ =>
        if isBlankChar x then doubleFrom fuel c.next read (gap.afterBlank x)
        else if isBreak x then
          let (b, c) := c.takeBreak
          doubleFrom fuel c read (gap.afterBreak b)
        else doubleFrom fuel c.next (gap.before x read) .none

/-- A quoted scalar, from its opening quote on, of less than `fuel` characters. -/
def quoted? (double : Bool) (fuel : Nat) (c : Cursor) : Option (String × Cursor) := do
  let (text, stop) ←
    if double then doubleFrom fuel c.next [] .none else singleFrom fuel c.next [] .none
  return (String.ofList text, stop)

end AffineRelations.Yaml
