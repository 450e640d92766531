import AffineRelations.Text.Decimal
import AffineRelations.Text.Integer
import AffineRelations.Text.Moment

/-!
# What a plain scalar means

A plain scalar means its own text unless it is a number, a date, a truth value
or null. When text is written, a text that older readers take for a truth value
or for a number to base 60 is treated as if it were one.
-/
namespace AffineRelations.Yaml

inductive Meaning where
  | text | null | truth | integer | fraction | moment
  deriving DecidableEq, Repr

/-- The texts that mean null. -/
def nullTexts : List String := ["", "~", "null", "Null", "NULL"]

def truthTexts : List String := ["true", "True", "TRUE", "false", "False", "FALSE"]

/-- Numbers without digits. -/
def namedNumbers : List String :=
  [".nan", ".NaN", ".NAN", ".inf", ".Inf", ".INF", "+.inf", "+.Inf", "+.INF",
   "-.inf", "-.Inf", "-.INF"]

/-- Texts that older readers take for truth values. -/
def oldTruthTexts : List String :=
  ["y", "Y", "yes", "Yes", "YES", "on", "On", "ON", "n", "N", "no", "No", "NO", "off", "Off", "OFF"]

open Text in
/-- Whether a text is a date, or a date with a time. A date has a year of four
digits, a month and a day with dashes between them. A time may follow: after a
`T` with a zone, or after a blank without one. Zeros in front may be left out,
except in the year. -/
def isTimestamp (cs : List Char) : Bool :=
  match afterDate? true cs with
  | none => false
  | some [] => true
  | some (c :: rest) =>
    if c = 'T' ∨ c = 't' then (afterTime? true rest).any isZone
    else c = ' ' && (afterTime? true rest).any List.isEmpty

/-- Whether digits of a base, with a sign in front if that is allowed, fit in a
word. A number without a sign may use all bits of it. -/
def isBasedNumber (base : Nat) (negative signAllowed : Bool) (cs : List Char) : Bool :=
  let digits := if signAllowed then Text.dropSign cs else cs
  let signed := negative || digits.length < cs.length
  match Text.takeDigits base 0 digits with
  | .ok n => !digits.isEmpty && (!signed || (Text.signedWithin
      (negative || cs.take 1 == ['-']) n).toBool)
  | .error _ => false

/-- Whether a text without underscores is an integer. Behind the prefixes `0b`
and `0o` a sign may stand as well as in front of them. -/
def isInteger (cs : List Char) : Bool :=
  (Text.readInteger (String.ofList cs)).toBool || (Text.readNatural cs).toBool ||
    match cs with
    | '0' :: 'b' :: digits => isBasedNumber 2 false true digits
    | '0' :: 'o' :: digits => isBasedNumber 8 false true digits
    | '-' :: '0' :: 'b' :: digits => isBasedNumber 2 true false digits
    | '-' :: '0' :: 'o' :: digits => isBasedNumber 8 true false digits
    | _ => false

/-- Whether each underscore stands between two digits. The flag says whether a
digit stands in front. -/
def underscoresWithin : (digitBefore : Bool) → List Char → Bool
  | _, [] => true
  | digitBefore, '_' :: cs =>
    digitBefore && cs.head?.any isDecimalChar && underscoresWithin false cs
  | _, c :: cs => underscoresWithin (isDecimalChar c) cs

/-- Whether groups of one or two digits, with a colon in front of each, follow
up to the end or to a fraction. -/
def isSexagesimalTail : (fuel : Nat) → List Char → Bool
  | 0, _ => false
  | fuel + 1, ':' :: cs =>
    let digits := cs.takeWhile isDecimalChar
    let small := digits.length == 1 || (digits.length == 2 && digitsValue 10 digits < 60)
    small && match cs.dropWhile isDecimalChar with
      | [] => true
      | '.' :: rest => rest.all fun c => isDecimalChar c || c == '_'
      | rest => isSexagesimalTail fuel rest
  | _ + 1, _ => false

/-- Whether a text is a number to base 60. -/
def isSexagesimal (cs : List Char) : Bool :=
  let cs := Text.dropSign cs
  match cs with
  | c :: _ =>
    isDecimalChar c &&
      isSexagesimalTail (cs.length + 1) (cs.dropWhile fun c => isDecimalChar c || c == '_')
  | [] => false

/-- What a text means that starts with a digit or a sign. Underscores in numbers
do not count. -/
def numberMeaning (cs : List Char) : Meaning :=
  let plain := cs.filter (· != '_')
  if isTimestamp cs then .moment
  else if isInteger plain then .integer
  else if Text.isDecimal (Text.dropSign plain) then .fraction
  else .text

/-- What a plain scalar means. -/
def meaning (s : String) : Meaning :=
  if nullTexts.contains s then .null
  else if truthTexts.contains s then .truth
  else if namedNumbers.contains s then .fraction
  else match s.toList with
    | [] => .null
    | c :: cs =>
      if c = '.' then
        if underscoresWithin false cs && Text.isDecimal ((c :: cs).filter (· != '_')) then .fraction
        else .text
      else if isDecimalChar c || c == '+' || c == '-' then numberMeaning (c :: cs)
      else .text

/-- Whether a text can be written without quotes and keeps its meaning, also for
older readers. -/
def standsForText (s : String) : Bool :=
  meaning s == .text && !oldTruthTexts.contains s && !isSexagesimal s.toList

end AffineRelations.Yaml
