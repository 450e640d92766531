import AffineRelations.Text.Decimal
import AffineRelations.Text.Integer
import AffineRelations.Text.Moment

/-!
# Reading TOML

The reader covers tables, lists of tables, dotted and quoted keys, strings on
one line and on several, integers, numbers with fractions, dates and times,
truth values, arrays, inline tables and comments.

A document is a list of lines: headers that open a table, and pairs of a dotted
key and a value. Of a number with a fraction or an exponent, and of a date or a
time, only the form is kept.

Every reader takes the characters that are left and answers with what it read
and with the characters behind it. A NUL behind a value or a header ends the
document; the replacement character stands for text that could not be read and
is refused wherever it occurs.
-/
namespace AffineRelations

/-- A dotted key. -/
abbrev TomlPath := List String

inductive TomlValue where
  | integer (n : Int)
  | bool (b : Bool)
  | text (s : String)
  | fraction
  | moment
  | array (items : List TomlValue)
  | inline (pairs : List (TomlPath × TomlValue))
  deriving Repr

inductive TomlLine where
  /-- Opens a table, or the next table of a list of tables. -/
  | header (repeated : Bool) (path : TomlPath)
  | pair (path : TomlPath) (value : TomlValue)
  deriving Repr

/-- A dotted key as text. -/
def TomlPath.render (path : TomlPath) : String := String.intercalate "." path

namespace Toml

def isBlank (c : Char) : Bool := c == ' ' || c == '\t'

def isLineEnd (c : Char) : Bool := c == '\n' || c == '\r'

/-- Control characters apart from the tab, and the replacement character. -/
def isControl (c : Char) : Bool :=
  (c.toNat < 0x20 && c != '\t') || c.toNat == 0x7F || c.toNat == 0xFFFD

def isBareKeyChar (c : Char) : Bool :=
  ('a' ≤ c && c ≤ 'z') || ('A' ≤ c && c ≤ 'Z') || isDecimalChar c || c == '_' || c == '-'

/-- The character of a code point, if there is one. -/
def charOfCode? (n : Nat) : Option Char :=
  if n < 0xD800 || (0xDFFF < n && n < 0x110000) then some (Char.ofNat n) else none

/-- The character that `k` hexadecimal digits denote. -/
def codeEscape? (k : Nat) (cs : List Char) : Option Char :=
  let digits := cs.take k
  if digits.length == k && digits.all isHexChar then charOfCode? (digitsValue 16 digits) else none

/-- The character that an escape denotes, and the number of characters that it
takes behind the backslash. -/
def escape? : List Char → Option (Char × Nat)
  | 'b' :: _ => some (Char.ofNat 8, 1)
  | 't' :: _ => some ('\t', 1)
  | 'n' :: _ => some ('\n', 1)
  | 'f' :: _ => some (Char.ofNat 12, 1)
  | 'r' :: _ => some ('\r', 1)
  | '"' :: _ => some ('"', 1)
  | '\\' :: _ => some ('\\', 1)
  | 'u' :: cs => (codeEscape? 4 cs).map fun c => (c, 5)
  | 'U' :: cs => (codeEscape? 8 cs).map fun c => (c, 9)
  | _ => none

/-- A basic string behind its opening quote. -/
def basicFrom : (fuel : Nat) → (read : List Char) → List Char → Option (String × List Char)
  | 0, _, _ => none
  | _ + 1, _, [] => none
  | fuel + 1, read, c :: cs =>
    if c = '"' then some (String.ofList read, cs)
    else if c = '\\' then match escape? cs with
      | some (x, n) => basicFrom fuel (read ++ [x]) (cs.drop n)
      | none => none
    else if isControl c then none
    else basicFrom fuel (read ++ [c]) cs

/-- A literal string behind its opening quote. -/
def literalFrom (read : List Char) : List Char → Option (String × List Char)
  | [] => none
  | c :: cs =>
    if c = '\'' then some (String.ofList read, cs)
    else if isControl c then none
    else literalFrom (read ++ [c]) cs

/-- A string on one line. -/
def string? : List Char → Option (String × List Char)
  | '"' :: cs => basicFrom (cs.length + 1) [] cs
  | '\'' :: cs => literalFrom [] cs
  | _ => none

/-- What closes a string of several lines, from its first quote on: up to two
further quotes belong to the string. -/
def closing? (quote : Char) (cs : List Char) : Option (List Char × List Char) :=
  let count := (cs.takeWhile (· == quote)).length
  if count < 3 || 5 < count then none
  else some (List.replicate (count - 3) quote, cs.drop count)

/-- The first line end of a string of several lines does not count. -/
def dropFirstLineEnd : List Char → List Char
  | '\n' :: cs => cs
  | '\r' :: '\n' :: cs => cs
  | cs => cs

/-- What stands behind a backslash at the end of a line: blanks and line ends up
to the next content. -/
def joined? (cs : List Char) : Option (List Char) :=
  match cs.dropWhile isBlank with
  | '\n' :: rest => some (rest.dropWhile fun c => isBlank c || isLineEnd c)
  | '\r' :: '\n' :: rest => some (rest.dropWhile fun c => isBlank c || isLineEnd c)
  | _ => none

/-- A basic string of several lines behind its opening quotes. -/
def basicLinesFrom : (fuel : Nat) → (read : List Char) → List Char → Option (String × List Char)
  | 0, _, _ => none
  | _ + 1, _, [] => none
  | fuel + 1, read, c :: cs =>
    if c = '"' then match closing? '"' (c :: cs) with
      | some (quotes, rest) => some (String.ofList (read ++ quotes), rest)
      | none =>
        if (c :: cs).take 3 == ['"', '"', '"'] then none
        else basicLinesFrom fuel (read ++ [c]) cs
    else if c = '\\' then match joined? cs with
      | some rest => basicLinesFrom fuel read rest
      | none => match escape? cs with
        | some (x, n) => basicLinesFrom fuel (read ++ [x]) (cs.drop n)
        | none => none
    else if c = '\r' then
      if cs.take 1 == ['\n'] then basicLinesFrom fuel read cs else none
    else if isControl c && c != '\n' then none
    else basicLinesFrom fuel (read ++ [c]) cs

/-- A literal string of several lines behind its opening quotes. -/
def literalLinesFrom (read : List Char) : List Char → Option (String × List Char)
  | [] => none
  | c :: cs =>
    if c = '\'' && (closing? '\'' (c :: cs)).isSome then
      (closing? '\'' (c :: cs)).map fun (quotes, rest) => (String.ofList (read ++ quotes), rest)
    else if (c :: cs).take 3 == ['\'', '\'', '\''] then none
    else if c = '\r' && cs.take 1 != ['\n'] then none
    else if isControl c && !isLineEnd c then none
    else literalLinesFrom (read ++ [c]) cs

/-- A string as a value: on one line or on several. -/
def anyString? : List Char → Option (String × List Char)
  | '"' :: '"' :: '"' :: cs => basicLinesFrom (cs.length + 1) [] (dropFirstLineEnd cs)
  | '\'' :: '\'' :: '\'' :: cs => literalLinesFrom [] (dropFirstLineEnd cs)
  | cs => string? cs

/-- One part of a key: a string, or letters, digits, dashes and underscores. -/
def keyPart? (cs : List Char) : Option (String × List Char) :=
  match cs with
  | '"' :: _ | '\'' :: _ => string? cs
  | _ =>
    let name := cs.takeWhile isBareKeyChar
    if name.isEmpty then none else some (String.ofList name, cs.dropWhile isBareKeyChar)

/-- A key with dots between its parts, and the blanks behind it. -/
def path? : (fuel : Nat) → List Char → Option (TomlPath × List Char)
  | 0, _ => none
  | fuel + 1, cs => do
    let (part, rest) ← keyPart? (cs.dropWhile isBlank)
    match rest.dropWhile isBlank with
    | '.' :: rest =>
      let (parts, rest) ← path? fuel rest
      return (part :: parts, rest)
    | rest => return ([part], rest)

/-- Decimal digits with underscores between them. -/
def isDigits (cs : List Char) : Bool :=
  cs.all (fun c => isDecimalChar c || c == '_') && separated false cs

/-- Whether a number starts with a zero that more digits follow. -/
def hasLeadingZero : List Char → Bool
  | '0' :: c :: _ => isDecimalChar c
  | _ => false

/-- Whether digits start as they may: no zero stands in front of a digit, and
behind a sign it stands alone. -/
def leadsWell (signed : Bool) (cs : List Char) : Bool :=
  !hasLeadingZero cs && !(signed && cs.take 1 == ['0'] && cs != ['0'])

/-- A number without its sign. -/
def unsigned (cs : List Char) : Bool × List Char :=
  match cs with
  | '+' :: cs | '-' :: cs => (true, cs)
  | cs => (false, cs)

/-- Whether a word is an integer. A sign goes with decimal digits only. -/
def isInteger (word : List Char) : Bool :=
  match unsigned word with
  | (false, '0' :: 'x' :: cs) => cs.all (fun c => isHexChar c || c == '_') && separated false cs
  | (false, '0' :: 'o' :: cs) | (false, '0' :: 'b' :: cs) => isDigits cs
  | (signed, cs) => isDigits cs && leadsWell signed cs

/-- Whether a word is the exponent of a number. -/
def isExponent (cs : List Char) : Bool := isDigits (unsigned cs).2

/-- Whether a word has the form of a number with a fraction or an exponent. -/
def isFraction (word : List Char) : Bool :=
  let (signed, cs) := unsigned word
  let isMark (c : Char) : Bool := c == 'e' || c == 'E'
  let whole := cs.takeWhile fun c => isDecimalChar c || c == '_'
  let rest := cs.dropWhile fun c => isDecimalChar c || c == '_'
  cs == ['i', 'n', 'f'] || cs == ['n', 'a', 'n'] ||
    (isDigits whole && leadsWell signed whole && match rest with
      | '.' :: rest =>
        isDigits (rest.takeWhile fun c => !isMark c) && match rest.dropWhile fun c => !isMark c with
          | [] => true
          | _ :: exponent => isExponent exponent
      | c :: exponent => isMark c && isExponent exponent
      | [] => false)

/-- Whether a number is one without digits, or within the range of floats. -/
def isBounded (word : List Char) : Bool :=
  let cs := (unsigned word).2
  cs == ['i', 'n', 'f'] || cs == ['n', 'a', 'n'] || Text.isDecimal (cs.filter (· != '_'))

/-- The characters of dates and times. -/
def isMomentChar (c : Char) : Bool :=
  isDecimalChar c || ['-', ':', 'T', 't', ' ', '.', 'Z', 'z', '+'].contains c

/-- Whether a date or a time starts here: digits, and a dash or a colon behind
them. A single zero starts none. -/
def startsMoment (cs : List Char) : Bool :=
  let digits := cs.takeWhile isDecimalChar
  !digits.isEmpty && digits != ['0'] && match cs.dropWhile isDecimalChar with
    | c :: _ => c == '-' || c == ':'
    | [] => false

open Text in
/-- Whether a text is a date, a time, or both with a `T` or a blank between
them; a zone may follow them. -/
def isMoment (cs : List Char) : Bool :=
  let isTime (rest : List Char) : Bool := match afterTime? false rest with
    | some [] => true
    | _ => false
  isTime cs || match afterDate? false cs with
    | none => false
    | some [] => true
    | some (c :: rest) => (c == 'T' || c == 't' || c == ' ') &&
      (isTime rest || (afterTime? false rest).any fun zone =>
        isZone (if zone == ['z'] then ['Z'] else zone))

/-- A date or a time, with the blanks behind it. -/
def moment? (cs : List Char) : Option (TomlValue × List Char) :=
  let text := cs.takeWhile isMomentChar
  if isMoment (text.reverse.dropWhile (· == ' ')).reverse then
    some (.moment, cs.dropWhile isMomentChar)
  else none

/-- The characters of numbers and truth values. -/
def isWordChar (c : Char) : Bool := isBareKeyChar c || c == '+' || c == '.'

/-- A number or a truth value. -/
def word? (word : List Char) : Option TomlValue :=
  if word = ['t', 'r', 'u', 'e'] then some (.bool true)
  else if word = ['f', 'a', 'l', 's', 'e'] then some (.bool false)
  else if isInteger word then match Text.readInteger (String.ofList word) with
    | .ok n => some (.integer n)
    | .error _ => none
  else if isFraction word && isBounded word then some .fraction
  else none

/-- The characters behind a comment, which holds no control characters. -/
def comment? : List Char → Option (List Char)
  | [] => some []
  | c :: cs => if isLineEnd c then some (c :: cs) else if isControl c then none else comment? cs

/-- Skips blanks, line ends and comments. -/
def skipSpace? : (fuel : Nat) → List Char → Option (List Char)
  | 0, _ => none
  | fuel + 1, cs => match cs.dropWhile fun c => isBlank c || isLineEnd c with
    | '#' :: rest => do
      let rest ← comment? rest
      skipSpace? fuel rest
    | rest => some rest

mutual

/-- A value, with blanks in front of it. -/
def value? : (fuel : Nat) → List Char → Option (TomlValue × List Char)
  | 0, _ => none
  | fuel + 1, cs => match cs.dropWhile isBlank with
    | '[' :: rest => items? fuel [] rest
    | '\x7b' :: rest => match rest.dropWhile isBlank with
      | '\x7d' :: rest => some (.inline [], rest)
      | rest => pairs? fuel [] rest
    | '"' :: rest => (anyString? ('"' :: rest)).map fun (s, rest) => (.text s, rest)
    | '\'' :: rest => (anyString? ('\'' :: rest)).map fun (s, rest) => (.text s, rest)
    | rest =>
      if startsMoment rest then moment? rest
      else (word? (rest.takeWhile isWordChar)).map fun v => (v, rest.dropWhile isWordChar)

/-- The items of an array up to its end. The last one may have a comma. -/
def items? : (fuel : Nat) → (read : List TomlValue) → List Char →
    Option (TomlValue × List Char)
  | 0, _, _ => none
  | fuel + 1, read, cs => do
    match ← skipSpace? (cs.length + 1) cs with
    | ']' :: rest => return (.array read, rest)
    | rest =>
      let (v, rest) ← value? fuel rest
      match ← skipSpace? (rest.length + 1) rest with
      | ',' :: rest => items? fuel (read ++ [v]) rest
      | ']' :: rest => return (.array (read ++ [v]), rest)
      | _ => none

/-- The pairs of an inline table up to its end, all on one line. -/
def pairs? : (fuel : Nat) → (read : List (TomlPath × TomlValue)) → List Char →
    Option (TomlValue × List Char)
  | 0, _, _ => none
  | fuel + 1, read, cs => do
    let (key, v, rest) ← pair? fuel cs
    match rest.dropWhile isBlank with
    | ',' :: rest => pairs? fuel (read ++ [(key, v)]) rest
    | '\x7d' :: rest => return (.inline (read ++ [(key, v)]), rest)
    | _ => none

/-- A key, an equals sign and a value. -/
def pair? : (fuel : Nat) → List Char → Option (TomlPath × TomlValue × List Char)
  | 0, _ => none
  | fuel + 1, cs => do
    match ← path? (cs.length + 1) cs with
    | (key, '=' :: rest) =>
      let (v, rest) ← value? fuel rest
      return (key, v, rest)
    | _ => none

end

/-- The characters behind the end of a line that has no more content. A NUL
ends the document. -/
def lineEnd? (cs : List Char) : Option (List Char) :=
  match cs.dropWhile isBlank with
  | [] => some []
  | '#' :: rest => comment? rest
  | c :: rest => if isLineEnd c then some rest else if c.toNat = 0 then some [] else none

/-- A header behind its first bracket. -/
def header? (cs : List Char) : Option (TomlLine × List Char) :=
  match cs with
  | '[' :: cs => match path? (cs.length + 1) cs with
    | some (path, ']' :: ']' :: rest) => some (.header true path, rest)
    | _ => none
  | cs => match path? (cs.length + 1) cs with
    | some (path, ']' :: rest) => some (.header false path, rest)
    | _ => none

/-- One line of content. -/
def line? (cs : List Char) : Option (TomlLine × List Char) :=
  match cs with
  | '[' :: rest => header? rest
  | _ => (pair? (4 * cs.length + 4) cs).map fun (key, v, rest) => (.pair key v, rest)

def linesFrom : (fuel : Nat) → List Char → Option (List TomlLine)
  | 0, _ => none
  | fuel + 1, cs => do
    match ← skipSpace? (cs.length + 1) cs with
    | [] => return []
    | cs =>
      let (line, rest) ← line? cs
      let rest ← lineEnd? rest
      let lines ← linesFrom fuel rest
      return line :: lines

/-- Whether a text starts like one in another encoding: with a NUL among its
first six bytes. -/
def startsForeign (s : String) : Bool := (s.toUTF8.toList.take 6).contains 0

/-- The lines of a document. -/
def lines? (s : String) : Option (List TomlLine) :=
  if startsForeign s then none else linesFrom (s.toList.length + 1) s.toList

end Toml

end AffineRelations
