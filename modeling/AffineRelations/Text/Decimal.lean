import AffineRelations.Expr.Literal

/-!
# Decimal numbers

Numbers with a fraction and an exponent, of which only the form and the size
count here: whether a text is one, and whether it is within the range of floats
of 64 bits.
-/
namespace AffineRelations.Text

def dropSign (cs : List Char) : List Char :=
  match cs with
  | '+' :: cs | '-' :: cs => cs
  | cs => cs

/-- A decimal number as digits and a power of ten. -/
structure Decimal where
  digits : List Char
  exponent : Int
  deriving DecidableEq, Repr

/-- The number in front of which an exponent, if any, stands. -/
def decimalWith? (whole fraction : List Char) (exponent : List Char) : Option Decimal :=
  if whole.isEmpty && fraction.isEmpty then none
  else
    let shift : Int := fraction.length
    match exponent with
    | [] => some ⟨whole ++ fraction, -shift⟩
    | mark :: cs =>
      let digits := dropSign cs
      if (mark == 'e' || mark == 'E') && !digits.isEmpty && digits.all isDecimalChar then
        let e : Int := digitsValue 10 digits
        some ⟨whole ++ fraction, (if cs.take 1 == ['-'] then -e else e) - shift⟩
      else none

/-- A decimal number with an optional fraction and exponent. -/
def decimal? (cs : List Char) : Option Decimal :=
  let whole := cs.takeWhile isDecimalChar
  match cs.dropWhile isDecimalChar with
  | '.' :: rest => decimalWith? whole (rest.takeWhile isDecimalChar) (rest.dropWhile isDecimalChar)
  | rest => decimalWith? whole [] rest

/-- The least number that is too large for a float of 64 bits. -/
def floatLimit : Nat := Nat.pow 2 1024 - Nat.pow 2 970

/-- Whether a decimal number is within the range of floats of 64 bits. -/
def Decimal.inRange (d : Decimal) : Bool :=
  let digits := d.digits.dropWhile (· == '0')
  let magnitude : Int := digits.length + d.exponent
  if digits.isEmpty || magnitude < 300 then true
  else if 320 < magnitude then false
  else if 0 ≤ d.exponent then
    digitsValue 10 digits * Nat.pow 10 d.exponent.toNat < floatLimit
  else digitsValue 10 digits < floatLimit * Nat.pow 10 (-d.exponent).toNat

/-- Whether a text is a decimal number without a sign and in range. -/
def isDecimal (cs : List Char) : Bool := (decimal? cs).any Decimal.inRange

end AffineRelations.Text
