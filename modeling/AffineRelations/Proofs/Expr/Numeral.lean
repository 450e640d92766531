import AffineRelations.Expr.Literal
import Mathlib.Data.List.Basic
import Mathlib.Tactic.Common

/-!
# Decimal numerals

The digits that a number is printed with are a literal without a fault, and the
literal denotes the number. The sign is not part of the literal. So the least
number is read as the literal `2^63`, which wraps, and the sign in front of it
changes nothing.
-/
namespace AffineRelations

theorem isDecimalChar_eq_isDigit (c : Char) : isDecimalChar c = c.isDigit := by
  rfl

theorem isDecimalChar_of_mem_toDigits {n : ℕ} {c : Char} (hc : c ∈ Nat.toDigits 10 n) :
    isDecimalChar c := by
  rw [isDecimalChar_eq_isDigit]
  exact Nat.isDigit_of_mem_toDigits (by decide) (by decide) hc

/-- Only the numeral of zero starts with a zero. -/
theorem toDigits_eq_zero_cons {n : ℕ} {cs : List Char} (h : Nat.toDigits 10 n = '0' :: cs) :
    cs = [] := by
  induction n using Nat.strongRecOn generalizing cs with
  | ind n ih =>
      rw [Nat.toDigits_eq_if (by decide)] at h
      split_ifs at h with hlt
      · exact (List.cons.inj h).2.symm
      · -- the front digits are those of a positive number, so they are not a lone zero
        obtain ⟨ds, hds⟩ : ∃ ds, Nat.toDigits 10 (n / 10) = '0' :: ds := by
          cases hfront : Nat.toDigits 10 (n / 10) with
          | nil => exact absurd hfront Nat.toDigits_ne_nil
          | cons d ds =>
              rw [hfront, List.cons_append] at h
              exact ⟨ds, by rw [(List.cons.inj h).1]⟩
        have hlone : Nat.toDigits 10 (n / 10) = Nat.toDigits 10 0 := by
          rw [hds, ih (n / 10) (by omega) hds, Nat.toDigits_zero]
        have hzero := congrArg (Nat.ofDigitChars 10 · 0) hlone
        simp only [Nat.ofDigitChars_ten_toDigits] at hzero
        omega

theorem digitValue_eq_of_isDecimalChar {c : Char} (hc : isDecimalChar c) :
    digitValue c = c.toNat - '0'.toNat := by
  rw [digitValue, if_pos hc]

theorem digitValue_lt_ten {c : Char} (hc : isDecimalChar c) : digitValue c < 10 := by
  have hle : c.toNat ≤ '9'.toNat := by
    simp only [isDecimalChar, Bool.and_eq_true, decide_eq_true_eq] at hc
    exact hc.2
  have hbound : '9'.toNat - '0'.toNat < 10 := by decide
  rw [digitValue_eq_of_isDecimalChar hc]
  omega

theorem ne_underscore_of_isDecimalChar {c : Char} (hc : isDecimalChar c) : c ≠ '_' := by
  rintro rfl
  exact absurd hc (by decide)

theorem digitsValue_eq_ofDigitChars {cs : List Char} (h : ∀ c ∈ cs, isDecimalChar c) :
    digitsValue 10 cs = Nat.ofDigitChars 10 cs 0 := by
  rw [digitsValue, Nat.ofDigitChars_eq_foldl]
  refine List.foldl_ext _ _ _ fun n c hc => ?_
  rw [digitValue_eq_of_isDecimalChar (h c hc), Nat.mul_comm]

theorem separated_of_decimal {cs : List Char} (h : ∀ c ∈ cs, isDecimalChar c) :
    separated true cs := by
  induction cs with
  | nil => rfl
  | cons c cs ih =>
      rw [separated, if_neg (ne_underscore_of_isDecimalChar (h c List.mem_cons_self))]
      exact ih fun d hd => h d (List.mem_cons_of_mem c hd)

namespace Literal

theorem ofText_toDigits (n : ℕ) :
    ofText (Nat.toDigits 10 n) = ⟨.decimal, false, Nat.toDigits 10 n⟩ := by
  rw [ofText]
  intro c digits h
  exact List.cons_ne_nil c digits (toDigits_eq_zero_cons h)

/-- Digits without a leading prefix are accepted as they are. -/
theorem fault?_decimal {cs : List Char} (hne : cs ≠ []) (h : ∀ c ∈ cs, isDecimalChar c) :
    fault? ⟨.decimal, false, cs⟩ = none := by
  obtain ⟨c, ds, rfl⟩ := List.exists_cons_of_ne_nil hne
  have hc := ne_underscore_of_isDecimalChar (h c List.mem_cons_self)
  have hsome : ¬(c :: ds).all (· == '_') := by simp [hc]
  have hfits : (c :: ds).find? (fun d => d != '_' && Radix.decimal.base ≤ digitValue d) = none := by
    rw [List.find?_eq_none]
    intro d hd
    have hlt : ¬Radix.decimal.base ≤ digitValue d :=
      Nat.not_le.mpr (digitValue_lt_ten (h d hd))
    simp [hlt]
  have hsep : separated false (c :: ds) := by
    rw [separated, if_neg hc]
    exact separated_of_decimal fun d hd => h d (List.mem_cons_of_mem c hd)
  rw [fault?, if_neg hsome]
  simp only [hfits, hsep, if_true]

theorem fault?_toDigits (n : ℕ) : (ofText (Nat.toDigits 10 n)).fault? = none := by
  rw [ofText_toDigits]
  exact fault?_decimal Nat.toDigits_ne_nil fun _ => isDecimalChar_of_mem_toDigits

theorem value_toDigits (n : ℕ) : (ofText (Nat.toDigits 10 n)).value = n := by
  have hfilter : (Nat.toDigits 10 n).filter (· != '_') = Nat.toDigits 10 n := by
    rw [List.filter_eq_self]
    intro c hc
    simpa using ne_underscore_of_isDecimalChar (isDecimalChar_of_mem_toDigits hc)
  rw [ofText_toDigits, value, hfilter, Radix.base,
    digitsValue_eq_ofDigitChars fun _ => isDecimalChar_of_mem_toDigits,
    Nat.ofDigitChars_ten_toDigits]

theorem toInt64?_toDigits {n : ℕ} (hn : n < 18446744073709551616) :
    (ofText (Nat.toDigits 10 n)).toInt64? = some (Int64.ofNat n) := by
  rw [toInt64?, value_toDigits, if_pos hn, UInt64.toInt64_ofNat']

end Literal

/-- The digits of a number, without its sign. -/
def numeral (n : Int64) : List Char := Nat.toDigits 10 n.toInt.natAbs

theorem toList_toString_toInt (n : Int64) :
    (toString n.toInt).toList = if n.toInt < 0 then '-' :: numeral n else numeral n := by
  rw [Int.toString_eq_repr, Int.repr_eq_if, numeral]
  by_cases hneg : n.toInt < 0
  · have habs : (-n.toInt).toNat = n.toInt.natAbs := by omega
    rw [if_neg (by omega), if_pos hneg, habs, String.toList_append, Nat.repr_eq_ofList_toDigits,
      String.toList_ofList, String.toList_ofList, List.singleton_append]
  · have habs : n.toInt.toNat = n.toInt.natAbs := by omega
    rw [if_pos (by omega), if_neg hneg, habs, Nat.repr_eq_ofList_toDigits, String.toList_ofList]

/-- The numeral is read back as the number up to its sign. -/
theorem toInt64?_numeral (n : Int64) :
    (Literal.ofText (numeral n)).toInt64? = some (if n.toInt < 0 then -n else n) := by
  have hlow := n.le_toInt
  have hhigh := n.toInt_lt
  rw [numeral, Literal.toInt64?_toDigits (by omega), Option.some_inj, ← Int64.ofInt_eq_ofNat]
  split_ifs with hneg
  · rw [Int.ofNat_natAbs_of_nonpos (by omega), Int64.ofInt_neg, Int64.ofInt_toInt]
  · rw [Int.natAbs_of_nonneg (by omega), Int64.ofInt_toInt]

end AffineRelations
