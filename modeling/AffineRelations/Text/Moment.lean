import AffineRelations.Expr.Literal

/-!
# Dates and times

The parts that notations for dates and times are made of. Every reader answers
with the characters that stand behind what it has read. How many digits a part
has is up to the notation.
-/
namespace AffineRelations.Text

/-- A number of two digits, or of one if that is allowed. -/
def smallNumber? (single : Bool) : List Char → Option (Nat × List Char)
  | a :: b :: cs =>
    if !isDecimalChar a then none
    else if isDecimalChar b then some (digitsValue 10 [a, b], cs)
    else if single then some (digitValue a, b :: cs)
    else none
  | [a] => if single && isDecimalChar a then some (digitValue a, []) else none
  | [] => none

/-- What stands behind one given character. -/
def after? (x : Char) : List Char → Option (List Char)
  | c :: cs => if c = x then some cs else none
  | [] => none

def isLeapYear (y : Nat) : Bool := y % 4 == 0 && (y % 100 != 0 || y % 400 == 0)

def daysOfMonth (y m : Nat) : Nat :=
  if m = 2 then (if isLeapYear y then 29 else 28)
  else if m = 4 ∨ m = 6 ∨ m = 9 ∨ m = 11 then 30
  else 31

/-- What stands behind a date: a year of four digits, a month and a day. -/
def afterDate? (single : Bool) (cs : List Char) : Option (List Char) := do
  let year := cs.takeWhile isDecimalChar
  if year.length != 4 then none else
  let y := digitsValue 10 year
  let rest ← after? '-' (cs.drop 4)
  let (m, rest) ← smallNumber? single rest
  let rest ← after? '-' rest
  let (d, rest) ← smallNumber? single rest
  if 1 ≤ m && m ≤ 12 && 1 ≤ d && d ≤ daysOfMonth y m then some rest else none

/-- What stands behind a fraction of a second, which may be missing. -/
def afterFraction (cs : List Char) : List Char :=
  match cs with
  | p :: d :: rest =>
    if (p == '.' || p == ',') && isDecimalChar d then rest.dropWhile isDecimalChar else cs
  | _ => cs

/-- What stands behind hours, minutes and seconds. The hours may always have one
digit. -/
def afterTime? (single : Bool) (cs : List Char) : Option (List Char) := do
  let (h, rest) ← smallNumber? true cs
  let rest ← after? ':' rest
  let (m, rest) ← smallNumber? single rest
  let rest ← after? ':' rest
  let (s, rest) ← smallNumber? single rest
  if h < 24 && m < 60 && s < 60 then some (afterFraction rest) else none

/-- A zone: `Z`, or hours and minutes with a sign. -/
def isZone : List Char → Bool
  | ['Z'] => true
  | [sign, a, b, ':', c, d] =>
    (sign == '+' || sign == '-') && [a, b, c, d].all isDecimalChar &&
      digitsValue 10 [a, b] ≤ 24 && digitsValue 10 [c, d] ≤ 60
  | _ => false

end AffineRelations.Text
