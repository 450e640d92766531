import AffineRelations.Expr.Literal
import AffineRelations.Text.Quoted

/-!
# Integers and truth values as text

An integer may have a sign and is otherwise a literal: the prefixes `0x`, `0o`
and `0b` choose the base, a leading zero alone chooses eight, and single
underscores may stand between digits and after a prefix. Its value has to fit
in a signed word of 64 bits.
-/
namespace AffineRelations.Text

/-- Why a text is no integer of 64 bits. -/
inductive IntegerFault where
  | malformed
  | outOfRange
  deriving DecidableEq, Repr

def IntegerFault.message : IntegerFault → String
  | .malformed => "invalid syntax"
  | .outOfRange => "value out of range"

/-- The first number that does not fit in an unsigned word. -/
def wordLimit : Nat := 18446744073709551616

/-- The first number that does not fit in a signed word. -/
def signedLimit : Nat := 9223372036854775808

/-- Takes in digits one after another. The value is refused as soon as it is too
large, whatever comes after. -/
def takeDigits (base : Nat) : (n : Nat) → List Char → Except IntegerFault Nat
  | n, [] => .ok n
  | n, c :: cs =>
    if c = '_' then takeDigits base n cs
    else if isHexChar c && digitValue c < base then
      let m := n * base + digitValue c
      if m < wordLimit then takeDigits base m cs else .error .outOfRange
    else .error .malformed

/-- The value of digits and underscores. The flag says that what stands before
them counts as a digit. -/
def digitsWithin (base : Nat) (digitBefore : Bool) (digits : List Char) :
    Except IntegerFault Nat :=
  match takeDigits base 0 digits with
  | .error e => .error e
  | .ok n => if separated digitBefore digits then .ok n else .error .malformed

/-- The value of a literal that fits in an unsigned word. -/
def readNatural : List Char → Except IntegerFault Nat
  | [] => .error .malformed
  | '0' :: c :: d :: cs => match Radix.ofPrefix? c with
    | some r => digitsWithin r.base true (d :: cs)
    | none => digitsWithin 8 false ('0' :: c :: d :: cs)
  | '0' :: cs => digitsWithin 8 false ('0' :: cs)
  | cs => digitsWithin 10 false cs

/-- Puts a sign in front of a number that has to fit in a signed word. -/
def signedWithin (negative : Bool) (n : Nat) : Except IntegerFault Int :=
  if negative then
    if n ≤ signedLimit then .ok (-(n : Int)) else .error .outOfRange
  else if n < signedLimit then .ok n else .error .outOfRange

def readInteger (s : String) : Except IntegerFault Int :=
  let (negative, digits) := match s.toList with
    | '-' :: cs => (true, cs)
    | '+' :: cs => (false, cs)
    | cs => (false, cs)
  match readNatural digits with
  | .error e => .error e
  | .ok n => signedWithin negative n

/-- How a text that is no integer is reported. -/
def integerMessage (s : String) (e : IntegerFault) : String :=
  "strconv.ParseInt: parsing " ++ quoted s ++ ": " ++ e.message

/-- The spellings of the truth values. -/
def readTruth? (s : String) : Option Bool :=
  if ["1", "t", "T", "true", "TRUE", "True"].contains s then some true
  else if ["0", "f", "F", "false", "FALSE", "False"].contains s then some false
  else none

/-- How a text that is no truth value is reported. -/
def truthMessage (s : String) : String :=
  "strconv.ParseBool: parsing " ++ quoted s ++ ": invalid syntax"

end AffineRelations.Text
