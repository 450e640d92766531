import AffineRelations.Text.Category

/-!
# Quoted text

Messages show text between double quotes. A character stands for itself if it
is printable: a letter, a mark, a number, punctuation, a symbol or the ASCII
space. Quote and backslash take a backslash, seven control characters have a
letter of their own, and all others are written by code point in two, four or
eight hexadecimal digits.
-/
namespace AffineRelations.Text

def isPrintable (c : Char) : Bool :=
  c == ' ' || isLetter c || isDecimalDigit c || isSymbol c

/-- The last `digits` hexadecimal digits of `n`, in lower case. -/
def hexDigits (n : Nat) : (digits : Nat) → List Char
  | 0 => []
  | k + 1 => hexDigits (n / 16) k ++ [Nat.digitChar (n % 16)]

/-- The control characters that have a letter. -/
def escapeLetter? (c : Char) : Option Char :=
  match c.toNat with
  | 7 => some 'a'
  | 8 => some 'b'
  | 12 => some 'f'
  | 10 => some 'n'
  | 13 => some 'r'
  | 9 => some 't'
  | 11 => some 'v'
  | _ => none

/-- A character as it stands inside quotes of the given kind. -/
def quoteChar (quote c : Char) : List Char :=
  if c = quote ∨ c = '\\' then ['\\', c]
  else if isPrintable c then [c]
  else match escapeLetter? c with
    | some l => ['\\', l]
    | none =>
      if c.toNat < 0x80 then '\\' :: 'x' :: hexDigits c.toNat 2
      else if c.toNat < 0x10000 then '\\' :: 'u' :: hexDigits c.toNat 4
      else '\\' :: 'U' :: hexDigits c.toNat 8

def quoted (s : String) : String :=
  String.ofList ('"' :: s.toList.flatMap (quoteChar '"') ++ ['"'])

/-- A single character between single quotes. -/
def quotedChar (c : Char) : String :=
  String.ofList ('\'' :: quoteChar '\'' c ++ ['\''])

end AffineRelations.Text
