import AffineRelations.Yaml.Block
import AffineRelations.Yaml.Property
import AffineRelations.Yaml.Scalar

/-!
# Reading tokens of YAML

Tokens are read when they are asked for, with two more behind the one that is
asked for. That the key of a mapping has been read is known only at the colon
behind it: the place where a key may have started is marked, and at the colon
the tokens for a key, and for a mapping if one starts with it, are put in at the
mark. A token that is marked is not handed out until the mark is settled.

A key has to stand on one line with its colon, at most 1024 characters in front
of it. In a block, the columns where collections start are kept; a smaller
column ends them.
-/
namespace AffineRelations.Yaml

/-- The beginning and the end of every block and flow collection is a token, as
are keys and values, so that the nesting of nodes can be read off the tokens
alone. -/
inductive Token where
  | streamStart
  | streamEnd
  | directive (d : Directive)
  | documentStart
  | documentEnd
  | blockSeqStart
  | blockMapStart
  | blockEnd
  | flowSeqStart
  | flowSeqEnd
  | flowMapStart
  | flowMapEnd
  | blockEntry
  | flowEntry
  | key
  | value
  | reference (name : String)
  | anchor (name : String)
  | tag (handle rest : String)
  | scalar (plain : Bool) (text : String)
  deriving DecidableEq, Repr

/-- A place where a key may start. -/
structure KeyMark where
  /-- The mark is not settled yet. -/
  isOpen : Bool
  /-- Nothing but a key can stand in this column. -/
  required : Bool
  /-- The number of the token at this place. -/
  number : Nat
  index : Nat
  line : Nat
  col : Nat
  deriving Repr

/-- The distance at which a colon makes a key of what stands at a mark. -/
def keyReach : Nat := 1024

structure TokenStream where
  /-- More than the number of characters of the whole text. -/
  size : Nat
  cursor : Cursor
  /-- The number of flow collections that are open. -/
  depth : Nat
  /-- The column of the innermost block collection; -1 outside of all. -/
  indent : Int
  /-- The columns of the block collections around it. -/
  outer : List Int
  /-- A key may start at the next token. -/
  keyAllowed : Bool
  /-- The last mark on each level of flow collections, outermost first. -/
  marks : Array KeyMark
  /-- The levels of the marks by the numbers of their tokens. -/
  awaited : List (Nat × Nat)
  /-- Tokens that have been read and not handed out. -/
  queue : List Token
  /-- The number of tokens that have been handed out. -/
  taken : Nat
  /-- The text starts with a byte order mark of its own. -/
  marked : Bool
  deriving Repr

namespace TokenStream

def ofChars (cs : List Char) : TokenStream :=
  { size := cs.length + 8
    cursor := .ofChars cs
    depth := 0
    indent := -1
    outer := []
    keyAllowed := true
    marks := #[⟨false, false, 0, 0, 0, 0⟩]
    awaited := []
    queue := [.streamStart]
    taken := 0
    marked := cs.head?.any isByteOrderMark }

def isFlow (s : TokenStream) : Bool := s.depth != 0

/-- The number that the next token gets. -/
def nextNumber (s : TokenStream) : Nat := s.taken + s.queue.length

def push (s : TokenStream) (t : Token) : TokenStream := { s with queue := s.queue ++ [t] }

/-- Puts a token in front of the one with a number. -/
def insertAt (s : TokenStream) (number : Nat) (t : Token) : TokenStream :=
  if number < s.taken then s.push t
  else { s with queue := s.queue.take (number - s.taken) ++ t :: s.queue.drop (number - s.taken) }

/-- Adds a token of `n` characters. -/
def pushChars (s : TokenStream) (n : Nat) (t : Token) : TokenStream :=
  { s.push t with cursor := s.cursor.drop n }

/-- The mark on the innermost level. -/
def mark (s : TokenStream) : KeyMark :=
  (s.marks[s.marks.size - 1]?).getD ⟨false, false, 0, 0, 0, 0⟩

def setMark (s : TokenStream) (level : Nat) (m : KeyMark) : TokenStream :=
  { s with marks := s.marks.setIfInBounds level m }

def forget (s : TokenStream) (number : Nat) : TokenStream :=
  { s with awaited := s.awaited.filter fun p => p.1 != number }

/-- Whether a mark is still open. A mark that the colon cannot reach any more is
settled; if a key was required there, the text is malformed. -/
def checkMark? (s : TokenStream) (level : Nat) : Option (Bool × TokenStream) :=
  match s.marks[level]? with
  | none => some (false, s)
  | some m =>
    if !m.isOpen then some (false, s)
    else if m.line < s.cursor.line || m.index + keyReach < s.cursor.index then
      if m.required then none else some (false, s.setMark level { m with isOpen := false })
    else some (true, s)

/-- Settles the mark on the innermost level: no key starts there. -/
def dropMark? (s : TokenStream) : Option TokenStream :=
  if !s.mark.isOpen then some s
  else if s.mark.required then none
  else some ((s.forget s.mark.number).setMark (s.marks.size - 1) { s.mark with isOpen := false })

/-- Marks this place if a key may start here. -/
def saveMark? (s : TokenStream) : Option TokenStream :=
  if !s.keyAllowed then some s
  else do
    let level := s.marks.size - 1
    let m : KeyMark := ⟨true, !s.isFlow && s.indent == s.cursor.col, s.nextNumber, s.cursor.index,
      s.cursor.line, s.cursor.col⟩
    let s ← s.dropMark?
    let s := (s.forget m.number).setMark level m
    return { s with awaited := (m.number, level) :: s.awaited }

/-- Starts a block collection in a column, unless one is open there. Its token
comes in front of the one with the number, or at the end. -/
def openBlock (s : TokenStream) (col : Nat) (number : Option Nat) (t : Token) : TokenStream :=
  if s.isFlow || (col : Int) ≤ s.indent then s
  else
    let s := { s with outer := s.indent :: s.outer, indent := col }
    match number with
    | some n => s.insertAt n t
    | none => s.push t

/-- Ends the block collections beyond a column. -/
def closeBlocks (col : Int) : (indent : Int) → (outer : List Int) → TokenStream → TokenStream
  | indent, [], s => { s with indent := indent, outer := [] }
  | indent, i :: outer, s =>
    if indent ≤ col then { s with indent := indent, outer := i :: outer }
    else closeBlocks col i outer (s.push .blockEnd)

def dedent (s : TokenStream) (col : Int) : TokenStream :=
  if s.isFlow then s else closeBlocks col s.indent s.outer s

/-- Skips blanks, comments and line ends up to the next token, for at most `fuel`
lines. Tabs are skipped where no key can start. A line end in a block allows a
key. -/
def skipToContent : (fuel : Nat) → TokenStream → TokenStream
  | 0, s => s
  | fuel + 1, s =>
    let c := if s.cursor.col == 0 && s.marked then s.cursor.next else s.cursor
    let c := c.skipWhile fun x => x == ' ' || ((s.isFlow || !s.keyAllowed) && x == '\t')
    let c := if c.peek? == some '#' then c.skipComments s.size else c
    if c.atBreak then
      skipToContent fuel { s with cursor := c.nextLine, keyAllowed := s.keyAllowed || !s.isFlow }
    else { s with cursor := c }

/-- The end of the text. It stands on a line of its own. -/
def endToken? (s : TokenStream) : Option TokenStream := do
  let c := s.cursor
  let c := if c.col == 0 then c else { c with line := c.line + 1, col := 0 }
  let s ← (dedent { s with cursor := c } (-1)).dropMark?
  return { s with keyAllowed := false }.push .streamEnd

def directiveToken? (s : TokenStream) : Option TokenStream := do
  let s ← (s.dedent (-1)).dropMark?
  let (d, c) ← directive? s.size s.cursor
  return { s with keyAllowed := false, cursor := c }.push (.directive d)

def markerToken? (s : TokenStream) (t : Token) : Option TokenStream := do
  let s ← (s.dedent (-1)).dropMark?
  return { s with keyAllowed := false }.pushChars 3 t

def flowStart? (s : TokenStream) (t : Token) : Option TokenStream := do
  let s ← s.saveMark?
  let c := s.cursor
  return { s with
    marks := s.marks.push ⟨false, false, s.nextNumber, c.index, c.line, c.col⟩
    depth := s.depth + 1
    keyAllowed := true }.pushChars 1 t

def flowEnd? (s : TokenStream) (t : Token) : Option TokenStream := do
  let s ← s.dropMark?
  let s := if s.isFlow then
      { s.forget s.mark.number with depth := s.depth - 1, marks := s.marks.pop }
    else s
  return { s with keyAllowed := false }.pushChars 1 t

def flowEntry? (s : TokenStream) : Option TokenStream := do
  let s ← s.dropMark?
  return { s with keyAllowed := true }.pushChars 1 .flowEntry

def blockEntry? (s : TokenStream) : Option TokenStream := do
  require (s.isFlow || s.keyAllowed)
  let s ← (s.openBlock s.cursor.col none .blockSeqStart).dropMark?
  return { s with keyAllowed := true }.pushChars 1 .blockEntry

def key? (s : TokenStream) : Option TokenStream := do
  require (s.isFlow || s.keyAllowed)
  let s ← (s.openBlock s.cursor.col none .blockMapStart).dropMark?
  return { s with keyAllowed := !s.isFlow }.pushChars 1 .key

/-- A colon. It makes a key of what stands at the mark, or else follows a key
with a question mark. -/
def value? (s : TokenStream) : Option TokenStream := do
  let level := s.marks.size - 1
  let m := s.mark
  let (isKey, s) ← s.checkMark? level
  if isKey then
    let s := (s.insertAt m.number .key).openBlock m.col (some m.number) .blockMapStart
    let s := (s.forget m.number).setMark level { m with isOpen := false }
    return { s with keyAllowed := false }.pushChars 1 .value
  else
    require (s.isFlow || s.keyAllowed)
    let s := s.openBlock s.cursor.col none .blockMapStart
    return { s with keyAllowed := !s.isFlow }.pushChars 1 .value

/-- A token that may be a key or start one. -/
def marked? (s : TokenStream) (read : Cursor → Option (Token × Cursor)) : Option TokenStream := do
  let s ← s.saveMark?
  let (t, c) ← read s.cursor
  return { s with keyAllowed := false, cursor := c }.push t

def plain? (s : TokenStream) : Option TokenStream := do
  require (startsPlain s.isFlow s.cursor.chars)
  let s ← s.saveMark?
  let (text, c, ended) ← plainFrom s.isFlow (s.indent + 1).toNat s.size s.cursor [] .none
  return { s with keyAllowed := ended, cursor := c }.push (.scalar true (String.ofList text))

def blockScalar? (s : TokenStream) (literal : Bool) : Option TokenStream := do
  let s ← s.dropMark?
  let (text, c) ← block? literal s.indent s.size s.cursor
  return { s with keyAllowed := true, cursor := c }.push (.scalar false text)

def quotedScalar? (s : TokenStream) (double : Bool) : Option TokenStream :=
  s.marked? fun c => (quoted? double s.size c).map fun (text, c) => (.scalar false text, c)

/-- A token in the middle of a document. -/
def contentToken? (s : TokenStream) (x : Char) : Option TokenStream :=
  let glued := !(blankOrEnd (s.cursor.chars.drop 1))
  if x = '[' then s.flowStart? .flowSeqStart
  else if x = '\x7b' then s.flowStart? .flowMapStart
  else if x = ']' then s.flowEnd? .flowSeqEnd
  else if x = '\x7d' then s.flowEnd? .flowMapEnd
  else if x = ',' then s.flowEntry?
  else if x = '-' && !glued then s.blockEntry?
  else if x = '?' && (s.isFlow || !glued) then s.key?
  else if x = ':' && (s.isFlow || !glued) then s.value?
  else if x = '*' then s.marked? fun c => (anchorName? c).map fun (n, c) => (.reference n, c)
  else if x = '&' then s.marked? fun c => (anchorName? c).map fun (n, c) => (.anchor n, c)
  else if x = '!' then s.marked? fun c => (tag? s.size c).map fun (h, r, c) => (.tag h r, c)
  else if x = '|' && !s.isFlow then s.blockScalar? true
  else if x = '>' && !s.isFlow then s.blockScalar? false
  else if x = '\'' then s.quotedScalar? false
  else if x = '"' then s.quotedScalar? true
  else s.plain?

/-- Reads one more token. A comment behind it on its line is skipped, except
behind a dash. -/
def fetch? (s : TokenStream) : Option TokenStream :=
  let s := skipToContent s.size s
  let s := s.dedent s.cursor.col
  match s.cursor.peek? with
  | none => s.endToken?
  | some x =>
    if s.cursor.col == 0 && x == '%' then s.directiveToken?
    else if s.cursor.atMarker '-' then s.markerToken? .documentStart
    else if s.cursor.atMarker '.' then s.markerToken? .documentEnd
    else (s.contentToken? x).map fun s =>
      if s.queue.getLast? == some .blockEntry then s
      else { s with cursor := s.cursor.skipLineComment }

/-- The number of tokens that are read ahead of the one that is handed out. -/
def lookahead : Nat := 2

/-- Reads tokens until the first one can be handed out. -/
def fill? : (fuel : Nat) → TokenStream → Option TokenStream
  | 0, _ => none
  | fuel + 1, s =>
    if s.queue.length ≤ lookahead then s.fetch?.bind (fill? fuel)
    else match s.awaited.lookup s.taken with
      | none => some s
      | some level => do
        let (awaits, s) ← s.checkMark? level
        if awaits then s.fetch?.bind (fill? fuel) else return s

/-- The next token, which stays in the stream. -/
def peek? (s : TokenStream) : Option (Token × TokenStream) := do
  let s ← fill? s.size s
  let t ← s.queue.head?
  return (t, s)

/-- Takes the next token away. -/
def skip (s : TokenStream) : TokenStream :=
  { s with queue := s.queue.drop 1, taken := s.taken + 1 }

end TokenStream

end AffineRelations.Yaml
