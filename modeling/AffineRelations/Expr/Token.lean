import AffineRelations.Expr.Literal
import AffineRelations.Text.Quoted
import AffineRelations.Text.Utf8

/-!
# Tokens of the statement language

Names are letters, digits and underscores and do not start with a digit;
integers are literals; the rest are operators and single characters. Blanks
separate and are dropped. A byte order mark is skipped at the very start.

Reading stops at the first character that is NUL or no character at all. It
looks one character ahead, so the token right before such a character is lost
with it. Otherwise the token list ends with the end of the source, or with the
first literal that is refused.
-/
namespace AffineRelations

structure Position where
  line : Nat
  col : Nat
  deriving DecidableEq, Repr

inductive Token where
  | name (text : String)
  | int (text : List Char)
  | op (o : Op)
  | leftParen
  | rightParen
  | other (c : Char)
  deriving DecidableEq, Repr

def Token.text : Token → String
  | .name s => s
  | .int cs => String.ofList cs
  | .op o => o.text
  | .leftParen => "("
  | .rightParen => ")"
  | .other c => c.toString

inductive SyntaxCause where
  | unexpected (text : String)
  | unexpectedEnd
  | expectedParen (found : String)
  | badTarget (printed : String)
  | badInteger (text : String)
  | literal (fault : LiteralFault)
  | nul
  | invalidUtf8
  deriving DecidableEq, Repr

def LiteralFault.message : LiteralFault → String
  | .noDigits radix => radix.literalName ++ " has no digits"
  | .invalidDigit c radix =>
    "invalid digit " ++ Text.quotedChar c ++ " in " ++ radix.literalName
  | .misplacedSeparator => "'_' must separate successive digits"

def SyntaxCause.message : SyntaxCause → String
  | .unexpected s => "unexpected " ++ Text.quoted s
  | .unexpectedEnd => "unexpected end of input"
  | .expectedParen s => "expected ')', got " ++ Text.quoted s
  | .badTarget s => "left side of assignment must be a variable, got " ++ s
  | .badInteger s => "bad integer " ++ Text.quoted s
  | .literal f => f.message
  | .nul => "invalid character NUL"
  | .invalidUtf8 => "invalid UTF-8 encoding"

/-- Where and why a source is refused. The empty source has no position. -/
structure SyntaxError where
  pos : Option Position
  cause : SyntaxCause
  deriving DecidableEq, Repr

def SyntaxError.message (e : SyntaxError) : String :=
  let place := match e.pos with
    | some p => s!":{p.line}:{p.col}"
    | none => ""
  "expr: syntax error at <input>" ++ place ++ ": " ++ e.cause.message

/-- What stands behind the last character, or token, that can be used. -/
inductive Ending where
  | eof (pos : Option Position)
  | broken (error : SyntaxError)
  deriving DecidableEq, Repr

/-- Where a complaint about the next character points to. -/
def Ending.pos : Ending → Option Position
  | .eof pos => pos
  | .broken e => e.pos

/-- Characters with their positions, up to the first that cannot be read. -/
structure Source where
  chars : List (Position × Char)
  ending : Ending
  deriving DecidableEq, Repr

namespace Source

/-- Numbers the characters from the given line and column on. -/
def locate (line col : Nat) : List (Option Char) → Source
  | [] => ⟨[], .eof (some ⟨line, col⟩)⟩
  | none :: _ => ⟨[], .broken ⟨some ⟨line, col⟩, .invalidUtf8⟩⟩
  | some c :: cs =>
    if c.toNat = 0 then ⟨[], .broken ⟨some ⟨line, col⟩, .nul⟩⟩
    else
      let rest := if c = '\n' then locate (line + 1) 1 cs else locate line (col + 1) cs
      { rest with chars := (⟨line, col⟩, c) :: rest.chars }

/-- Drops a byte order mark. -/
def dropMark : List (Position × Char) → List (Position × Char)
  | (p, c) :: cs => if c.toNat = 0xFEFF then cs else (p, c) :: cs
  | [] => []

def ofChars (cs : List (Option Char)) : Source :=
  if cs.isEmpty then ⟨[], .eof none⟩
  else
    let s := locate 1 1 cs
    { s with chars := dropMark s.chars }

def ofString (s : String) : Source := ofChars (s.toList.map some)

def ofBytes (bytes : List UInt8) : Source := ofChars (Text.decodeUtf8 bytes)

end Source

/-- The blanks between tokens. -/
def isBlank (c : Char) : Bool := c == ' ' || c == '\t' || c == '\n' || c == '\r'

def isNameStart (c : Char) : Bool := c == '_' || Text.isLetter c

def isNameChar (c : Char) : Bool := isNameStart c || Text.isDecimalDigit c

/-- The operator or single character that starts with `c`. The flag says that
`=` follows and may join. -/
def signToken (c : Char) (equalsNext : Bool) : Token × Bool :=
  match c, equalsNext with
  | '(', _ => (.leftParen, false)
  | ')', _ => (.rightParen, false)
  | '+', _ => (.op .add, false)
  | '-', _ => (.op .sub, false)
  | '*', _ => (.op .mul, false)
  | '/', _ => (.op .div, false)
  | '%', _ => (.op .mod, false)
  | '<', false => (.op .less, false)
  | '<', true => (.op .lessEq, true)
  | '>', false => (.op .greater, false)
  | '>', true => (.op .greaterEq, true)
  | '=', false => (.op .assign, false)
  | '=', true => (.op .equal, true)
  | '!', true => (.op .notEqual, true)
  | c, _ => (.other c, false)

/-- Splits off the longest front whose characters satisfy `p`. -/
def takeChars (p : Char → Bool) (cs : List (Position × Char)) :
    List Char × List (Position × Char) :=
  ((cs.takeWhile fun c => p c.2).map (·.2), cs.dropWhile fun c => p c.2)

/-- The characters of a literal after its first digit. -/
def takeLiteral (first : Char) (cs : List (Position × Char)) :
    List Char × List (Position × Char) :=
  let decimals := takeChars fun c => isDecimalChar c || c == '_'
  match cs with
  | (_, c) :: rest =>
    if first = '0' then
      match Radix.ofPrefix? c with
      | some .hexadecimal =>
        let digits := takeChars (fun c => isHexChar c || c == '_') rest
        (c :: digits.1, digits.2)
      | some _ =>
        let digits := decimals rest
        (c :: digits.1, digits.2)
      | none => decimals cs
    else decimals cs
  | [] => ([], [])

/-- The token that starts with `c`, and the characters behind it. -/
def takeToken (c : Char) (cs : List (Position × Char)) : Token × List (Position × Char) :=
  if isNameStart c then
    let more := takeChars isNameChar cs
    (.name (String.ofList (c :: more.1)), more.2)
  else if isDecimalChar c then
    let more := takeLiteral c cs
    (.int (c :: more.1), more.2)
  else
    let sign := signToken c (cs.head?.any fun d => d.2 == '=')
    (sign.1, if sign.2 then cs.tail else cs)

theorem length_takeChars_le (p : Char → Bool) (cs : List (Position × Char)) :
    (takeChars p cs).2.length ≤ cs.length := (List.dropWhile_suffix _).length_le

theorem length_takeLiteral_le (c : Char) (cs : List (Position × Char)) :
    (takeLiteral c cs).2.length ≤ cs.length := by
  unfold takeLiteral
  cases cs with
  | nil => exact Nat.le_refl 0
  | cons d rest =>
    have step : rest.length ≤ (d :: rest).length := Nat.le_succ _
    simp only
    split
    · split
      · have h := length_takeChars_le (fun c => isHexChar c || c == '_') rest
        exact Nat.le_trans h step
      · have h := length_takeChars_le (fun c => isDecimalChar c || c == '_') rest
        exact Nat.le_trans h step
      · exact length_takeChars_le _ _
    · exact length_takeChars_le _ _

theorem length_takeToken_le (c : Char) (cs : List (Position × Char)) :
    (takeToken c cs).2.length ≤ cs.length := by
  unfold takeToken
  split
  · exact length_takeChars_le _ cs
  · split
    · exact length_takeLiteral_le c cs
    · simp only
      split
      · rw [List.length_tail]; omega
      · exact Nat.le_refl _

/-- Tokens with their positions, and what ends them. -/
structure TokenList where
  items : List (Position × Token)
  ending : Ending
  deriving DecidableEq, Repr

/-- The fault of a token, if it is a literal that is refused. -/
def Token.fault? : Token → Option LiteralFault
  | .int cs => (Literal.ofText cs).fault?
  | _ => none

namespace TokenList

def scan (ending : Ending) (cs : List (Position × Char)) : TokenList :=
  match cs with
  | [] => ⟨[], ending⟩
  | (pos, c) :: cs =>
    if isBlank c then scan ending cs
    else
      let front := takeToken c cs
      let next := (front.2.head?.map (·.1)).or ending.pos
      match ending, front.2 with
      | .broken e, [] => ⟨[], .broken e⟩
      | _, _ => match front.1.fault? with
        | some f => ⟨[], .broken ⟨next, .literal f⟩⟩
        | none =>
          let rest := scan ending front.2
          { rest with items := (pos, front.1) :: rest.items }
  termination_by cs.length
  decreasing_by
    · simp only [List.length_cons]; omega
    · have h := length_takeToken_le c cs
      simp only [List.length_cons]; omega

def ofSource (s : Source) : TokenList := scan s.ending s.chars

end TokenList

end AffineRelations
