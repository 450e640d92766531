import AffineRelations.Proofs.Word.Value

/-!
# Signed readings

A 64-bit integer and the word with the same bits denote one element, so wrapping
at 64 bits is invisible for signed numbers too. The signed reading of a word is
its balanced residue: the only number from `-2^(w-1)` to `2^(w-1) - 1` that
denotes the same element. For words with a top bit it is found by subtracting
`2^w` in 64 bits. At width 63 the number subtracted is itself read as negative,
and the difference wraps back. At width 64 the bits are read as they stand.
-/
namespace AffineRelations.WordRing

theorem toInt_toInt64_word (x : UInt64) : x.toInt64.toInt = (x.toNat : ℤ).bmod (2 ^ 64) := by
  rw [← Int64.toInt_toBitVec, UInt64.toBitVec_toInt64, BitVec.toInt_eq_toNat_bmod,
    UInt64.toNat_toBitVec]

/-- The subtraction wraps again what its operands wrapped, so that `2^63` can be
subtracted although it is read as negative. -/
theorem toInt_sub_two_pow {k : ℕ} (hk : k < 64) (x : UInt64) :
    (x.toInt64 - ((1 : UInt64) <<< UInt64.ofNat k).toInt64).toInt =
      ((x.toNat : ℤ) - (2 ^ k : ℕ)).bmod (2 ^ 64) := by
  rw [Int64.toInt_sub, toInt_toInt64_word, toInt_toInt64_word, Int.bmod_sub_bmod,
    Int.sub_bmod_bmod, toNat_one_shiftLeft hk]

variable (r : WordRing)

theorem intCast_bmod_word (z : ℤ) : ((z.bmod (2 ^ 64) : ℤ) : r.Elem) = z := by
  refine ((ZMod.intCast_eq_intCast_iff_dvd_sub _ _ _).mpr ?_).symm
  exact (Int.natCast_dvd_natCast.mpr r.two_pow_width_dvd).trans Int.dvd_bmod_sub_self

theorem intCast_toInt_ofNat (n : ℕ) : ((Int64.ofNat n).toInt : r.Elem) = n := by
  rw [Int64.toInt_ofNat']
  exact (r.intCast_bmod_word _).trans (Int.cast_natCast _)

theorem intCast_toInt_neg (c : Int64) : ((-c).toInt : r.Elem) = -c.toInt := by
  rw [Int64.toInt_neg]
  exact (r.intCast_bmod_word _).trans (Int.cast_neg _)

theorem value_ofInt64 (c : Int64) : r.value (r.ofInt64 c) = (c.toInt : r.Elem) := by
  have hint : c.toInt = (c.toUInt64.toNat : ℤ).bmod (2 ^ 64) := by
    rw [← toInt_toInt64_word, Int64.toInt64_toUInt64]
  rw [hint, r.intCast_bmod_word, Int.cast_natCast]
  exact r.value_residue _

theorem toNat_ofInt64 (c : Int64) : ((r.ofInt64 c).toNat : ℤ) = c.toInt % (2 ^ r.width : ℕ) := by
  have hword : r.ofInt64 c = r.word c.toInt := r.eq_word (r.reduced_residue _) (r.value_ofInt64 c)
  rw [hword, toNat_word, ZMod.val_intCast]

theorem residue_shiftRight_eq_one_iff (x : UInt64) :
    r.residue x >>> UInt64.ofNat (r.width - 1) = 1 ↔ 2 ^ (r.width - 1) ≤ (r.residue x).toNat := by
  have hlt : (r.residue x).toNat < 2 * 2 ^ (r.width - 1) := by
    rw [mul_pow_sub_one r.width_pos.ne']
    exact r.reduced_residue x
  have hindex : r.width - 1 < 64 := (Nat.sub_lt r.width_pos Nat.one_pos).trans_le r.width_le
  rw [← UInt64.toNat_inj, toNat_shiftRight_ofNat hindex, UInt64.toNat_one,
    Nat.div_eq_iff (Nat.two_pow_pos _)]
  omega

/-- The signed reading of a word is its balanced residue. -/
theorem toInt_toInt64 (x : UInt64) :
    (r.toInt64 x).toInt = (x.toNat : ℤ).bmod (2 ^ r.width) := by
  have hres : ((r.residue x).toNat : ℤ).bmod (2 ^ r.width) = (x.toNat : ℤ).bmod (2 ^ r.width) := by
    rw [toNat_residue, Int.natCast_mod, Int.emod_bmod]
  have hlt : (r.residue x).toNat < 2 ^ r.width := r.reduced_residue x
  have hhalf := mul_pow_sub_one r.width_pos.ne' 2
  rw [← hres, toInt64]
  simp only [residue_shiftRight_eq_one_iff]
  generalize r.residue x = v at hlt ⊢
  by_cases hw : r.width < 64
  · have hle : 2 ^ r.width ≤ 2 ^ 63 := Nat.pow_le_pow_right (by decide) (by omega)
    by_cases htop : 2 ^ (r.width - 1) ≤ v.toNat
    · rw [if_pos ⟨hw, htop⟩]
      -- the difference fits, so it is the same number modulo `2^64` and modulo `2^w`
      calc (v.toInt64 - ((1 : UInt64) <<< UInt64.ofNat r.width).toInt64).toInt
          = ((v.toNat : ℤ) - (2 ^ r.width : ℕ)).bmod (2 ^ 64) := toInt_sub_two_pow hw v
        _ = v.toNat - (2 ^ r.width : ℕ) :=
            Int.bmod_eq_of_le_mul_two (by omega) (by omega)
        _ = ((v.toNat : ℤ) - (2 ^ r.width : ℕ)).bmod (2 ^ r.width) :=
            (Int.bmod_eq_of_le_mul_two (by omega) (by omega)).symm
        _ = (v.toNat : ℤ).bmod (2 ^ r.width) := Int.sub_bmod_right _ _
    · rw [if_neg fun h => htop h.2, toInt_toInt64_word,
        Int.bmod_eq_of_le_mul_two (by omega) (by omega),
        Int.bmod_eq_of_le_mul_two (by omega) (by omega)]
  · have he : r.width = 64 := le_antisymm r.width_le (not_lt.mp hw)
    rw [if_neg fun h => hw h.1, toInt_toInt64_word, he]

theorem ofInt64_toInt64 (x : UInt64) : r.ofInt64 (r.toInt64 x) = r.residue x := by
  have h := r.toNat_ofInt64 (r.toInt64 x)
  rw [toInt_toInt64, Int.bmod_emod, ← Int.natCast_mod, ← toNat_residue] at h
  exact UInt64.toNat_inj.mp (Int.ofNat_inj.mp h)

theorem natCast_two_pow_width : ((2 ^ r.width : ℕ) : ℤ) = 2 * 2 ^ (r.width - 1) := by
  rw [Nat.cast_pow, Nat.cast_ofNat, mul_pow_sub_one r.width_pos.ne']

theorem toInt64_bounds (x : UInt64) :
    -2 ^ (r.width - 1) ≤ (r.toInt64 x).toInt ∧ (r.toInt64 x).toInt < 2 ^ (r.width - 1) := by
  have hpos : 0 < 2 ^ r.width := Nat.two_pow_pos _
  have hlow := Int.le_bmod (x := x.toNat) hpos
  have hhigh := Int.bmod_lt (x := x.toNat) hpos
  have hhalf := r.natCast_two_pow_width
  rw [toInt_toInt64]
  omega

theorem toInt64_ofInt64 {c : Int64} (hlow : -2 ^ (r.width - 1) ≤ c.toInt)
    (hhigh : c.toInt < 2 ^ (r.width - 1)) : r.toInt64 (r.ofInt64 c) = c := by
  have hhalf := r.natCast_two_pow_width
  rw [← Int64.toInt_inj, toInt_toInt64, toNat_ofInt64, Int.emod_bmod,
    Int.bmod_eq_of_le_mul_two (by omega) (by omega)]

/-- For each width in range the ring exists, and reading a word as a signed
number and taking the word of a signed number undo each other: on every word up
to reduction, and on every number of `w` bits. -/
theorem signed_exact {w : ℕ} (hpos : 0 < w) (hle : w ≤ 64) :
    ∃ r : WordRing, ofWidth w = .ok r ∧
      (∀ v : UInt64, (r.ofInt64 (r.toInt64 v)).toNat = v.toNat % 2 ^ w ∧
        -2 ^ (w - 1) ≤ (r.toInt64 v).toInt ∧ (r.toInt64 v).toInt < 2 ^ (w - 1)) ∧
      ∀ c : Int64, -2 ^ (w - 1) ≤ c.toInt → c.toInt < 2 ^ (w - 1) →
        r.toInt64 (r.ofInt64 c) = c := by
  obtain ⟨r, hr, rfl⟩ := width_of_ofWidth hpos hle
  refine ⟨r, hr, fun v => ⟨?_, r.toInt64_bounds v⟩, fun c => r.toInt64_ofInt64⟩
  rw [ofInt64_toInt64, toNat_residue]

/-- At width 63 the `2^63` that is subtracted wraps. The word is not reduced, and
the number is the least of 63 bits. -/
theorem signed_exact_wrapping : ∃ r : WordRing, ofWidth 63 = .ok r ∧
    (r.ofInt64 (r.toInt64 (.ofNat (3 * 2 ^ 62)))).toNat = 2 ^ 62 ∧
    -2 ^ 62 ≤ (Int64.ofInt (-2 ^ 62)).toInt ∧ (Int64.ofInt (-2 ^ 62)).toInt < 2 ^ 62 ∧
    r.toInt64 (r.ofInt64 (.ofInt (-2 ^ 62))) = .ofInt (-2 ^ 62) := by
  obtain ⟨r, hr, hword, hint⟩ := signed_exact (w := 63) (by decide) (by decide)
  have hlow : -2 ^ 62 ≤ (Int64.ofInt (-2 ^ 62)).toInt := by decide
  have hhigh : (Int64.ofInt (-2 ^ 62)).toInt < 2 ^ 62 := by decide
  exact ⟨r, hr, (hword _).1, hlow, hhigh, hint _ hlow hhigh⟩

end AffineRelations.WordRing
