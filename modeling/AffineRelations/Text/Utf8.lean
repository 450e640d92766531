/-!
# Reading UTF-8

Bytes are read as characters. A byte that starts no well-formed sequence is
kept as one position without a character, and reading goes on with the next
byte.
-/
namespace AffineRelations.Text

/-- The six payload bits of a continuation byte. -/
def continuation? (b : UInt8) : Option Nat :=
  if 0x80 ≤ b ∧ b ≤ 0xBF then some (b.toNat - 0x80) else none

/-- The character of a code point that is in the given range and no surrogate. -/
def charIn? (lo hi n : Nat) : Option Char :=
  if h : lo ≤ n ∧ n ≤ hi ∧ n.isValidChar then some (Char.ofNatAux n h.2.2) else none

/-- The character at the front and the number of its bytes. Overlong forms,
surrogates and code points beyond the last are refused. -/
def decodeFront? : List UInt8 → Option (Char × Nat)
  | [] => none
  | a :: rest =>
    if a < 0x80 then (charIn? 0 0x7F a.toNat).map (·, 1)
    else if 0xC2 ≤ a ∧ a ≤ 0xDF then
      match rest with
      | b :: _ => do
        let x ← continuation? b
        let c ← charIn? 0x80 0x7FF ((a.toNat - 0xC0) * 64 + x)
        return (c, 2)
      | _ => none
    else if 0xE0 ≤ a ∧ a ≤ 0xEF then
      match rest with
      | b :: c :: _ => do
        let x ← continuation? b
        let y ← continuation? c
        let c ← charIn? 0x800 0xFFFF (((a.toNat - 0xE0) * 64 + x) * 64 + y)
        return (c, 3)
      | _ => none
    else if 0xF0 ≤ a ∧ a ≤ 0xF4 then
      match rest with
      | b :: c :: d :: _ => do
        let x ← continuation? b
        let y ← continuation? c
        let z ← continuation? d
        let c ← charIn? 0x10000 0x10FFFF ((((a.toNat - 0xF0) * 64 + x) * 64 + y) * 64 + z)
        return (c, 4)
      | _ => none
    else none

/-- All characters, with `none` for each byte that belongs to none. -/
def decodeUtf8 (bytes : List UInt8) : List (Option Char) :=
  match bytes with
  | [] => []
  | a :: rest => match decodeFront? (a :: rest) with
    | some (c, n) => some c :: decodeUtf8 (rest.drop (n - 1))
    | none => none :: decodeUtf8 rest
  termination_by bytes.length
  decreasing_by all_goals simp only [List.length_drop, List.length_cons]; omega

end AffineRelations.Text
