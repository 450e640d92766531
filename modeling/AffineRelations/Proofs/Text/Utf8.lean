import AffineRelations.Text.Utf8
import Mathlib.Data.List.Basic
import Mathlib.Tactic.Common

/-!
# The bytes of a text are read as the text

A character is encoded in one to four bytes. The first byte tells how many there
are, and each of the others carries six bits of the code point.
-/
namespace AffineRelations.Text

theorem toNat_byte {n : ℕ} (hn : n < 256) : (UInt8.ofNat n).toNat = n :=
  UInt8.toNat_ofNat_of_lt' hn

theorem charIn?_toNat {lo hi : ℕ} {c : Char} (hlo : lo ≤ c.toNat) (hhi : c.toNat ≤ hi) :
    charIn? lo hi c.toNat = some c := by
  rw [charIn?, dif_pos ⟨hlo, hhi, c.valid⟩]
  rfl

theorem continuation?_byte {x : ℕ} (hx : x < 64) :
    continuation? (UInt8.ofNat (x + 0x80)) = some x := by
  have hbyte := toNat_byte (n := x + 0x80) (by omega)
  rw [continuation?, if_pos, hbyte, Nat.add_sub_cancel]
  rw [UInt8.le_iff_toNat_le, UInt8.le_iff_toNat_le, hbyte]
  exact ⟨Nat.le_add_left _ _, Nat.le_of_lt_succ (Nat.add_lt_add_right hx _)⟩

theorem toNat_lt_last (c : Char) : c.toNat < 0x110000 := by
  have hvalid : c.toNat.isValidChar := c.valid
  rw [Nat.isValidChar] at hvalid
  omega

section Lead
variable {n : ℕ} {rest : List UInt8}

theorem decodeFront?_one (h : n < 0x80) :
    decodeFront? (UInt8.ofNat n :: rest) = (charIn? 0 0x7F n).map (·, 1) := by
  have hn := toNat_byte (n := n) (by omega)
  rw [decodeFront?.eq_def]
  simp [UInt8.lt_iff_toNat_lt, hn, h]

theorem decodeFront?_two (h : 0xC2 ≤ n ∧ n ≤ 0xDF) (b : UInt8) :
    decodeFront? (UInt8.ofNat n :: b :: rest) = (do
      let x ← continuation? b
      let c ← charIn? 0x80 0x7FF ((n - 0xC0) * 64 + x)
      return (c, 2)) := by
  have hn := toNat_byte (n := n) (by omega)
  have hone : ¬n < 0x80 := by omega
  rw [decodeFront?.eq_def]
  simp [UInt8.lt_iff_toNat_lt, UInt8.le_iff_toNat_le, hn, hone, h]

theorem decodeFront?_three (h : 0xE0 ≤ n ∧ n ≤ 0xEF) (b c : UInt8) :
    decodeFront? (UInt8.ofNat n :: b :: c :: rest) = (do
      let x ← continuation? b
      let y ← continuation? c
      let c ← charIn? 0x800 0xFFFF (((n - 0xE0) * 64 + x) * 64 + y)
      return (c, 3)) := by
  have hn := toNat_byte (n := n) (by omega)
  have hone : ¬n < 0x80 := by omega
  have htwo : ¬n ≤ 0xDF := by omega
  rw [decodeFront?.eq_def]
  simp [UInt8.lt_iff_toNat_lt, UInt8.le_iff_toNat_le, hn, hone, htwo, h]

theorem decodeFront?_four (h : 0xF0 ≤ n ∧ n ≤ 0xF4) (b c d : UInt8) :
    decodeFront? (UInt8.ofNat n :: b :: c :: d :: rest) = (do
      let x ← continuation? b
      let y ← continuation? c
      let z ← continuation? d
      let c ← charIn? 0x10000 0x10FFFF ((((n - 0xF0) * 64 + x) * 64 + y) * 64 + z)
      return (c, 4)) := by
  have hn := toNat_byte (n := n) (by omega)
  have hone : ¬n < 0x80 := by omega
  have htwo : ¬n ≤ 0xDF := by omega
  have hthree : ¬n ≤ 0xEF := by omega
  rw [decodeFront?.eq_def]
  simp [UInt8.lt_iff_toNat_lt, UInt8.le_iff_toNat_le, hn, hone, htwo, hthree, h]

end Lead

theorem decodeFront?_encode (c : Char) (rest : List UInt8) :
    decodeFront? (String.utf8EncodeChar c ++ rest) =
      some (c, (String.utf8EncodeChar c).length) := by
  have hval : c.val.toNat = c.toNat := rfl
  have hmax := toNat_lt_last c
  have hlow := continuation?_byte (x := c.toNat % 0x40) (by omega)
  have hmid := continuation?_byte (x := c.toNat / 64 % 0x40) (by omega)
  have hhigh := continuation?_byte (x := c.toNat / 4096 % 0x40) (by omega)
  rw [String.utf8EncodeChar, hval]
  split_ifs with h1 h2 h3
  · rw [List.singleton_append, decodeFront?_one (by omega), charIn?_toNat (Nat.zero_le _) h1]
    rfl
  · have hcode : (c.toNat / 64 % 0x20 + 0xC0 - 0xC0) * 64 + c.toNat % 0x40 = c.toNat := by omega
    have hchar : charIn? 0x80 0x7FF c.toNat = some c := charIn?_toNat (by omega) h2
    rw [List.cons_append, List.singleton_append, decodeFront?_two (by omega), hlow]
    simp only [Option.bind_eq_bind, Option.bind_some, hcode, hchar]
    rfl
  · have hcode : ((c.toNat / 4096 % 0x10 + 0xE0 - 0xE0) * 64 + c.toNat / 64 % 0x40) * 64 +
        c.toNat % 0x40 = c.toNat := by omega
    have hchar : charIn? 0x800 0xFFFF c.toNat = some c := charIn?_toNat (by omega) h3
    rw [List.cons_append, List.cons_append, List.singleton_append, decodeFront?_three (by omega),
      hlow, hmid]
    simp only [Option.bind_eq_bind, Option.bind_some, hcode, hchar]
    rfl
  · have hcode : (((c.toNat / 262144 % 0x08 + 0xF0 - 0xF0) * 64 + c.toNat / 4096 % 0x40) * 64 +
        c.toNat / 64 % 0x40) * 64 + c.toNat % 0x40 = c.toNat := by omega
    have hchar : charIn? 0x10000 0x10FFFF c.toNat = some c := charIn?_toNat (by omega) (by omega)
    rw [List.cons_append, List.cons_append, List.cons_append, List.singleton_append,
      decodeFront?_four (by omega), hlow, hmid, hhigh]
    simp only [Option.bind_eq_bind, Option.bind_some, hcode, hchar]
    rfl

theorem decodeUtf8_encode (cs : List Char) :
    decodeUtf8 (cs.flatMap String.utf8EncodeChar) = cs.map some := by
  induction cs with
  | nil => rw [List.flatMap_nil, decodeUtf8, List.map_nil]
  | cons c cs ih =>
      have hfront := decodeFront?_encode c (cs.flatMap String.utf8EncodeChar)
      rw [List.flatMap_cons, List.map_cons, ← ih]
      obtain ⟨a, more, hbytes⟩ : ∃ a more, String.utf8EncodeChar c = a :: more :=
        List.exists_cons_of_ne_nil String.utf8EncodeChar_ne_nil
      rw [hbytes, List.cons_append] at hfront ⊢
      rw [decodeUtf8, hfront]
      simp

theorem decodeUtf8_toUTF8 (s : String) : decodeUtf8 s.toUTF8.data.toList = s.toList.map some := by
  have hbytes : s.toUTF8.data.toList = s.toList.flatMap String.utf8EncodeChar := by
    rw [← s.ofList_toList, String.toUTF8_eq_toByteArray, String.toByteArray_ofList, List.utf8Encode,
      List.toList_data_toByteArray, String.toList_ofList]
  rw [hbytes, decodeUtf8_encode]

end AffineRelations.Text
