import AffineRelations.Expr.Basic

/-!
# Integer literals

A literal starts with a decimal digit. The prefixes `0x`, `0o` and `0b` choose
sixteen, eight and two as base, and a leading zero alone chooses eight. Single
underscores may stand between digits and after a prefix.
-/
namespace AffineRelations

inductive Radix where
  | decimal | octal | hexadecimal | binary
  deriving DecidableEq, Repr

namespace Radix

def base : Radix → Nat
  | .decimal => 10
  | .octal => 8
  | .hexadecimal => 16
  | .binary => 2

def literalName : Radix → String
  | .decimal => "decimal literal"
  | .octal => "octal literal"
  | .hexadecimal => "hexadecimal literal"
  | .binary => "binary literal"

/-- The base that a letter after a leading zero chooses. -/
def ofPrefix? (c : Char) : Option Radix :=
  if c = 'x' ∨ c = 'X' then some .hexadecimal
  else if c = 'o' ∨ c = 'O' then some .octal
  else if c = 'b' ∨ c = 'B' then some .binary
  else none

end Radix

def isDecimalChar (c : Char) : Bool := '0' ≤ c && c ≤ '9'

def isHexChar (c : Char) : Bool :=
  isDecimalChar c || ('a' ≤ c && c ≤ 'f') || ('A' ≤ c && c ≤ 'F')

/-- The value of a hexadecimal digit. -/
def digitValue (c : Char) : Nat :=
  if isDecimalChar c then c.toNat - '0'.toNat
  else if 'a' ≤ c && c ≤ 'f' then c.toNat - 'a'.toNat + 10
  else c.toNat - 'A'.toNat + 10

/-- The number that digits denote in a base, most significant first. -/
def digitsValue (base : Nat) (digits : List Char) : Nat :=
  digits.foldl (fun n c => n * base + digitValue c) 0

/-- A literal taken apart: its base, whether a prefix chose it, and the digits
and underscores after the prefix. -/
structure Literal where
  radix : Radix
  prefixed : Bool
  digits : List Char
  deriving DecidableEq, Repr

/-- Why a literal is refused. -/
inductive LiteralFault where
  | noDigits (radix : Radix)
  | invalidDigit (digit : Char) (radix : Radix)
  | misplacedSeparator
  deriving DecidableEq, Repr

/-- Each underscore stands between two digits. The flag says that what stands
before the text counts as a digit. -/
def separated : Bool → List Char → Bool
  | digitBefore, [] => digitBefore
  | digitBefore, c :: cs =>
    if c = '_' then digitBefore && separated false cs else separated true cs

namespace Literal

def ofText (text : List Char) : Literal :=
  match text with
  | '0' :: c :: digits => match Radix.ofPrefix? c with
    | some radix => ⟨radix, true, digits⟩
    | none => ⟨.octal, false, text⟩
  | _ => ⟨.decimal, false, text⟩

/-- The first fault: no digit at all, then a digit that the base does not have,
then an underscore that separates nothing. -/
def fault? (l : Literal) : Option LiteralFault :=
  if l.digits.all (· == '_') then some (.noDigits l.radix)
  else match l.digits.find? fun c => c != '_' && l.radix.base ≤ digitValue c with
    | some c => some (.invalidDigit c l.radix)
    | none => if separated l.prefixed l.digits then none else some .misplacedSeparator

def value (l : Literal) : Nat := digitsValue l.radix.base (l.digits.filter (· != '_'))

/-- The number that a literal below `2^64` denotes, with wrapped sign from
`2^63` on. -/
def toInt64? (l : Literal) : Option Int64 :=
  if l.value < 18446744073709551616 then some (UInt64.ofNat l.value).toInt64 else none

end Literal

end AffineRelations
