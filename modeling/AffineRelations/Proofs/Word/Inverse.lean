import AffineRelations.Proofs.Word.Value
import Mathlib.NumberTheory.Multiplicity
import Mathlib.Tactic.LinearCombination

/-!
# Inverses by refinement

An approximate inverse `x` of `d` misses an inverse by `1 - d * x`, and a
refinement squares what is missing. An odd word is its own inverse modulo 8, so
after `n` refinements its first `3 * 2^n` bits are right, and five refinements
leave nothing missing at any width. The even words are those that have no
inverse, and they are the ones refused.
-/
namespace AffineRelations.WordRing
variable (r : WordRing)

/-- Each refinement squares what is missing to an inverse. -/
theorem one_sub_refineInverse (d x : UInt64) :
    1 - r.value d * r.value (refineInverse d x) = (1 - r.value d * r.value x) ^ 2 := by
  have htwo : r.value 2 = 2 := by simp [value]
  rw [refineInverse, value_word_mul, value_word_sub, value_word_mul, htwo]
  ring

theorem one_sub_repeat_refineInverse (d x : UInt64) (n : ℕ) :
    1 - r.value d * r.value (Nat.repeat (refineInverse d) n x) =
      (1 - r.value d * r.value x) ^ 2 ^ n := by
  induction n with
  | zero => rw [pow_zero, pow_one]; rfl
  | succ n ih => rw [Nat.repeat, one_sub_refineInverse, ih, ← pow_mul, pow_succ]

/-- An odd word inverts itself modulo 8. -/
theorem eight_dvd_one_sub_mul_self {d : UInt64} (hd : d.toNat % 2 = 1) :
    8 ∣ 1 - r.value d * r.value d := by
  obtain ⟨c, hc⟩ := Int.eight_dvd_sq_sub_one_of_odd
    (show Odd (d.toNat : ℤ) by exact_mod_cast Nat.odd_iff.mpr hd)
  refine ⟨((-c : ℤ) : r.Elem), ?_⟩
  have hcast := congrArg (fun z : ℤ => (z : r.Elem)) hc
  push_cast at hcast ⊢
  rw [value]
  linear_combination -hcast

/-- Three bits are right at the start, and each refinement doubles their number. -/
theorem two_pow_dvd_one_sub_repeat {d : UInt64} (hd : d.toNat % 2 = 1) (n : ℕ) :
    2 ^ (3 * 2 ^ n) ∣ 1 - r.value d * r.value (Nat.repeat (refineInverse d) n d) := by
  have height : (2 : r.Elem) ^ 3 = 8 := by norm_num
  rw [one_sub_repeat_refineInverse, pow_mul, height]
  exact pow_dvd_pow_of_dvd (r.eight_dvd_one_sub_mul_self hd) _

theorem residue_and_one_eq_zero_iff (x : UInt64) : r.residue x &&& 1 = 0 ↔ x.toNat % 2 = 0 := by
  rw [← UInt64.toNat_inj, UInt64.toNat_and, UInt64.toNat_one, Nat.and_one_is_mod,
    residue_mod_two, UInt64.toNat_zero]

/-- The inverse of an odd word. -/
theorem inverse_of_odd {x : UInt64} (hodd : x.toNat % 2 = 1) :
    ∃ u, r.inverse x = .ok u ∧ r.value x * r.value u = 1 := by
  have hne : ¬(r.residue x &&& 1 = 0) := by
    rw [residue_and_one_eq_zero_iff, hodd]
    exact one_ne_zero
  refine ⟨_, if_neg hne, ?_⟩
  have hzero : (2 : r.Elem) ^ (3 * 2 ^ 5) = 0 :=
    r.two_pow_eq_zero (r.width_le.trans (by decide))
  have hdvd := r.two_pow_dvd_one_sub_repeat ((r.residue_mod_two x).trans hodd) 5
  rw [hzero, zero_dvd_iff, sub_eq_zero, value_residue] at hdvd
  rw [value_residue]
  exact hdvd.symm

theorem inverse_of_even {x : UInt64} (heven : x.toNat % 2 = 0) :
    r.inverse x = .error .notUnit :=
  if_pos ((r.residue_and_one_eq_zero_iff x).mpr heven)

theorem value_mul_of_inverse {x u : UInt64} (h : r.inverse x = .ok u) :
    r.value x * r.value u = 1 := by
  rcases Nat.mod_two_eq_zero_or_one x.toNat with heven | hodd
  · cases (r.inverse_of_even heven).symm.trans h
  · obtain ⟨v, hv, hone⟩ := r.inverse_of_odd hodd
    cases h.symm.trans hv
    exact hone

theorem reduced_of_inverse {x u : UInt64} (h : r.inverse x = .ok u) : r.Reduced u := by
  simp only [inverse] at h
  split_ifs at h
  cases h
  exact r.reduced_residue _

/-- For each width in range the ring exists, and inversion is exact on every
word, reduced or not: the even words are refused, and the answer for an odd word
is the reduced word whose product with it is 1 modulo `2^w`. -/
theorem inverse_exact {w : ℕ} (hpos : 0 < w) (hle : w ≤ 64) :
    ∃ r : WordRing, ofWidth w = .ok r ∧ ∀ d : UInt64,
      (r.inverse d = .error .notUnit ↔ d.toNat % 2 = 0) ∧
      (d.toNat % 2 = 1 → ∃ x, r.inverse d = .ok x ∧ x.toNat < 2 ^ w ∧
        d.toNat * x.toNat ≡ 1 [MOD 2 ^ w]) := by
  obtain ⟨r, hr, rfl⟩ := width_of_ofWidth hpos hle
  refine ⟨r, hr, fun d => ⟨⟨fun hrefused => ?_, r.inverse_of_even⟩, fun hodd => ?_⟩⟩
  · by_contra hodd
    obtain ⟨x, hx, -⟩ := r.inverse_of_odd (Nat.mod_two_ne_zero.mp hodd)
    cases hrefused.symm.trans hx
  · obtain ⟨x, hx, hone⟩ := r.inverse_of_odd hodd
    refine ⟨x, hx, r.reduced_of_inverse hx, ?_⟩
    rw [← ZMod.natCast_eq_natCast_iff, Nat.cast_mul, Nat.cast_one]
    exact hone

/-- The word 3 misses its own inverse by exactly 8, so at 64 bits the fifth
refinement is needed. -/
theorem inverse_exact_three : ∃ r : WordRing, ofWidth 64 = .ok r ∧
    (3 : UInt64).toNat % 2 = 1 ∧ r.inverse 3 = .ok 12297829382473034411 ∧
    r.inverse 6 = .error .notUnit := by
  obtain ⟨r, hr, hinv⟩ := inverse_exact (w := 64) (by decide) (by decide)
  obtain ⟨x, hx, hlt, hone⟩ := (hinv 3).2 (by decide)
  have hother : 3 * 12297829382473034411 ≡ 1 [MOD 2 ^ 64] := by decide
  have hnat : x.toNat = 12297829382473034411 :=
    ((hone.trans hother.symm).cancel_left_of_coprime (by decide)).eq_of_lt_of_lt hlt (by decide)
  have hvalue : x = 12297829382473034411 := UInt64.toNat_inj.mp hnat
  rw [hvalue] at hx
  exact ⟨r, hr, by decide, hx, (hinv 6).1.mpr (by decide)⟩

end AffineRelations.WordRing
