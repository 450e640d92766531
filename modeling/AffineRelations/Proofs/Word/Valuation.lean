import AffineRelations.Proofs.Word.Value
import Mathlib.NumberTheory.Multiplicity

/-!
# Valuation by table lookup

The lowest set bit of a word is a power of two below `2^w`. The first `w`
powers of two leave different remainders modulo the table's modulus, so the
table gives back the exponent, and `split` is the factorisation of a word into
a power of two and an odd part.

For each width in use the search for a modulus succeeds. One prime serves
nearly all widths, since 2 has order 66 modulo 67.
-/
namespace AffineRelations

/-- Doubling `n` times from the remainder of `2^i` gives the remainders of the
powers of two from `2^i` on. -/
theorem doublings_eq (p n i : ℕ) :
    doublings p n (2 ^ i % p) = (List.range' i n).map fun j => 2 ^ j % p := by
  induction n generalizing i with
  | zero => rfl
  | succ n ih =>
      have hnext : 2 ^ i % p * 2 % p = 2 ^ (i + 1) % p := by rw [Nat.mod_mul_mod, Nat.pow_succ]
      rw [doublings, hnext, ih, List.range'_succ, List.map_cons]

theorem doublings_one (p w : ℕ) :
    doublings p w (1 % p) = (List.range w).map fun i => 2 ^ i % p := by
  rw [← Nat.pow_zero 2, doublings_eq, List.range_eq_range']

/-- Among numbers that fit into the array of marks, all are fresh exactly if
none has a mark and none comes twice. -/
theorem allFresh_iff {seen : Array Bool} {xs : List ℕ} (hsize : ∀ x ∈ xs, x < seen.size) :
    allFresh seen xs = true ↔ xs.Nodup ∧ ∀ x ∈ xs, seen.getD x false = false := by
  induction xs generalizing seen with
  | nil => simp [allFresh]
  | cons x xs ih =>
      have hx : x < seen.size := hsize x List.mem_cons_self
      have hmark (y : ℕ) : (seen.setIfInBounds x true).getD y false = false ↔
          x ≠ y ∧ seen.getD y false = false := by
        by_cases hxy : x = y
        · subst hxy
          simp [Array.getD_eq_getD_getElem?, hx]
        · simp [Array.getD_eq_getD_getElem?, Array.getElem?_setIfInBounds_ne hxy, hxy]
      have hrest : ∀ y ∈ xs, y < (seen.setIfInBounds x true).size := by
        intro y hy
        rw [Array.size_setIfInBounds]
        exact hsize y (List.mem_cons_of_mem _ hy)
      rw [allFresh]
      by_cases hseen : seen.getD x false = true
      · have hmarked : ¬∀ y ∈ x :: xs, seen.getD y false = false := fun hall =>
          Bool.false_ne_true ((hall x List.mem_cons_self).symm.trans hseen)
        simp only [if_pos hseen, Bool.false_eq_true, hmarked, and_false]
      · rw [if_neg hseen, ih hrest, List.nodup_cons, List.forall_mem_cons]
        simp only [hmark]
        constructor
        · rintro ⟨hnodup, hall⟩
          exact ⟨⟨fun hmem => (hall x hmem).1 rfl, hnodup⟩, Bool.eq_false_iff.mpr hseen,
            fun y hy => (hall y hy).2⟩
        · rintro ⟨⟨hnot, hnodup⟩, -, hall⟩
          exact ⟨hnodup, fun y hy => ⟨fun he => hnot (he ▸ hy), hall y hy⟩⟩

theorem separatesPowers_iff {p w : ℕ} (hp : 0 < p) :
    separatesPowers p w = true ↔ ∀ i < w, ∀ j < i, 2 ^ j % p ≠ 2 ^ i % p := by
  have hsize : ∀ x ∈ (List.range w).map fun i => 2 ^ i % p,
      x < (Array.replicate p false).size := by
    intro x hx
    obtain ⟨i, -, rfl⟩ := List.mem_map.mp hx
    rw [Array.size_replicate]
    exact Nat.mod_lt _ hp
  have hunmarked (x : ℕ) : (Array.replicate p false).getD x false = false := by
    rw [Array.getD]
    split_ifs <;> simp
  rw [separatesPowers, doublings_one, allFresh_iff hsize, and_iff_left fun x _ => hunmarked x,
    List.Nodup, List.pairwise_map, List.pairwise_iff_getElem]
  simp only [List.length_range, List.getElem_range]
  constructor
  · intro h i hi j hj
    exact h j i (hj.trans hi) hi hj
  · intro h j i _ hi hj
    exact h i hi j hj

theorem separatesPowers_mono {p v w : ℕ} (hp : 0 < p) (h : v ≤ w)
    (hw : separatesPowers p w = true) : separatesPowers p v = true := by
  rw [separatesPowers_iff hp] at hw ⊢
  intro i hi
  exact hw i (by omega)

/-- A search that meets a good number within its steps ends at the first one. -/
theorem searchModulus_spec {w n p q : ℕ} (hpq : p ≤ q) (hn : q < p + n)
    (hq : (isPrimeNat q && separatesPowers q w) = true) :
    (isPrimeNat (searchModulus w n p) && separatesPowers (searchModulus w n p) w) = true ∧
      ∀ q', p ≤ q' → q' < searchModulus w n p →
        (isPrimeNat q' && separatesPowers q' w) = false := by
  induction n generalizing p with
  | zero => omega
  | succ n ih =>
      by_cases hgood : (isPrimeNat p && separatesPowers p w) = true
      · rw [searchModulus, if_pos hgood]
        exact ⟨hgood, fun q' hle hlt => by omega⟩
      · have hne : p ≠ q := fun he => hgood (he ▸ hq)
        obtain ⟨hfound, hbefore⟩ := ih (p := p + 1) (by omega) (by omega)
        rw [searchModulus, if_neg hgood]
        refine ⟨hfound, fun q' hle hlt => ?_⟩
        rcases hle.eq_or_lt with rfl | hgt
        · exact Bool.eq_false_iff.mpr hgood
        · exact hbefore q' hgt hlt

theorem exists_table_modulus {w : ℕ} (hw : w ≤ 64) :
    ∃ p, max w 2 ≤ p ∧ p < max w 2 + 64 ∧ (isPrimeNat p && separatesPowers p w) = true := by
  by_cases h : 4 ≤ w
  · have hp : isPrimeNat 67 = true := by decide
    have hs : separatesPowers 67 64 = true := by decide +kernel
    refine ⟨67, by omega, by omega, ?_⟩
    rw [hp, separatesPowers_mono (by decide) hw hs]
    rfl
  · have hp : isPrimeNat 5 = true := by decide
    have hs : separatesPowers 5 4 = true := by decide
    refine ⟨5, by omega, by omega, ?_⟩
    rw [hp, separatesPowers_mono (by decide) (by omega) hs]
    rfl

/-- The modulus is the least prime from `max w 2` on that separates the powers:
the bound on the search is never met. -/
theorem tableModulus_spec {w : ℕ} (hw : w ≤ 64) :
    0 < tableModulus w ∧ separatesPowers (tableModulus w) w = true ∧
      ∀ q, max w 2 ≤ q → q < tableModulus w →
        (isPrimeNat q && separatesPowers q w) = false := by
  obtain ⟨q, hle, hlt, hgood⟩ := exists_table_modulus hw
  obtain ⟨hfound, hbefore⟩ := searchModulus_spec hle hlt hgood
  have hparts := hfound
  simp only [isPrimeNat, Bool.and_eq_true, decide_eq_true_eq] at hparts
  rw [← tableModulus] at hparts hbefore
  exact ⟨by omega, hparts.2, hbefore⟩

/-- The table after the exponents below `m` have been entered. -/
theorem exponents_filled {p w m : ℕ} (hp : 0 < p) (hs : separatesPowers p w = true)
    (hm : m ≤ w) :
    ∃ t : Array ℕ, (doublings p m (1 % p)).zipIdx.foldl (fun t x => t.setIfInBounds x.1 x.2)
        (Array.replicate p 0) = t ∧
      t.size = p ∧ ∀ i < m, t.getD (2 ^ i % p) 0 = i := by
  induction m with
  | zero => exact ⟨_, rfl, by simp [doublings], by simp⟩
  | succ m ih =>
    obtain ⟨t, ht, hsize, hlook⟩ := ih (by omega)
    have hbound : 2 ^ m % p < t.size := by
      rw [hsize]
      exact Nat.mod_lt _ hp
    refine ⟨t.setIfInBounds (2 ^ m % p) m, ?_, by simpa using hsize, ?_⟩
    · rw [doublings_one] at ht ⊢
      rw [List.range_succ, List.map_append, List.zipIdx_append, List.foldl_append, ht]
      simp
    · intro i hi
      by_cases he : i = m
      · subst he
        simp [Array.getD_eq_getD_getElem?, hbound]
      · have hne := (separatesPowers_iff hp).mp hs m (by omega) i (by omega)
        rw [Array.getD_eq_getD_getElem?, Array.getElem?_setIfInBounds_ne hne.symm,
          ← Array.getD_eq_getD_getElem?]
        exact hlook i (by omega)

theorem PowerTable.exponent_two_pow {w i : ℕ} (hw : w ≤ 64) (hi : i < w) {x : UInt64}
    (hx : x.toNat = 2 ^ i) : (PowerTable.ofWidth w).exponent x = i := by
  obtain ⟨hp, hs, -⟩ := tableModulus_spec hw
  obtain ⟨t, ht, -, hlook⟩ := exponents_filled hp hs le_rfl
  rw [PowerTable.exponent, PowerTable.ofWidth, hx]
  change Array.getD _ (2 ^ i % tableModulus w) 0 = i
  rw [ht]
  exact hlook i hi

/-- A word and its negative share the lowest set bit and no higher one. -/
theorem toNat_and_negated {v : UInt64} {k d : ℕ} (hd : d % 2 = 1) (hv : v.toNat = 2 ^ k * d) :
    (v &&& (~~~v + 1)).toNat = 2 ^ k := by
  have hbit (i : ℕ) : v.toBitVec.getLsbD i = (decide (k ≤ i) && d.testBit (i - k)) := by
    rw [BitVec.getLsbD, UInt64.toNat_toBitVec, hv, Nat.testBit_two_pow_mul]
  have hodd : d.testBit 0 = true := by simp [Nat.testBit_zero, hd]
  have hbelow (i : ℕ) (hi : i < k) : v.toBitVec.getLsbD i = false := by
    rw [hbit, decide_eq_false (by omega), Bool.false_and]
  have hk : k < 64 := by
    have hlt := v.toNat_lt
    have hle : 2 ^ k ≤ 2 ^ k * d := Nat.le_mul_of_pos_right _ (by omega)
    exact (Nat.pow_lt_pow_iff_right (by decide : 1 < 2)).mp (by omega)
  have hlow : v.toBitVec &&& -v.toBitVec = BitVec.twoPow 64 k := by
    apply BitVec.eq_of_getLsbD_eq
    intro i hi
    rw [BitVec.getLsbD_and, BitVec.getLsbD_neg, BitVec.getLsbD_twoPow]
    rcases lt_trichotomy i k with h | h | h
    · simp [hbelow i h, h.ne']
    · subst h
      have hnone : ¬∃ j < i, v.toBitVec.getLsbD j = true := by
        rintro ⟨j, hj, hb⟩
        simp [hbelow j hj] at hb
      have hself : v.toBitVec.getLsbD i = true := by simp [hbit, hodd]
      simp [hself, hnone, hk]
    · have hsome : ∃ j < i, v.toBitVec.getLsbD j = true := ⟨k, h, by simp [hbit, hodd]⟩
      simp only [hsome, hi, decide_true, Bool.and_self, Bool.xor_true, Bool.and_not_self]
      simp
      omega
  have hneg : (v &&& (~~~v + 1)).toBitVec = v.toBitVec &&& -v.toBitVec := by
    rw [BitVec.neg_eq_not_add]
    rfl
  rw [← UInt64.toNat_toBitVec, hneg, hlow, BitVec.toNat_twoPow_of_lt hk]

/-- The first set bit of a word ends its trailing zeros. -/
theorem ctz_eq_of_getLsbD {n k : ℕ} {x : BitVec n} (hbit : x.getLsbD k = true)
    (hbelow : ∀ i < k, x.getLsbD i = false) : x.ctz.toNat = k := by
  have hne : x ≠ 0#n := by
    rintro rfl
    simp at hbit
  have hfirst := BitVec.getLsbD_true_ctz_of_ne_zero hne
  rcases lt_trichotomy x.ctz.toNat k with h | h | h
  · rw [hbelow _ h] at hfirst
    cases hfirst
  · exact h
  · rw [BitVec.getLsbD_false_of_lt_ctz h] at hbit
    cases hbit

namespace WordRing
variable (r : WordRing)

theorem two_pow_ne_zero {k : ℕ} (hk : k < r.width) : (2 : r.Elem) ^ k ≠ 0 := by
  intro h
  have hdvd : 2 ^ r.width ∣ 2 ^ k := by
    rw [← ZMod.natCast_eq_zero_iff]
    exact_mod_cast h
  have hle := (Nat.pow_dvd_pow_iff_le_right (by decide)).mp hdvd
  omega

theorem isUnit_value_of_odd {x : UInt64} (hx : x.toNat % 2 = 1) : IsUnit (r.value x) := by
  rw [value, ZMod.isUnit_iff_coprime]
  exact Nat.Coprime.pow_right _ (Nat.coprime_two_right.mpr (Nat.odd_iff.mpr hx))

theorem split_of_value_eq_zero {x : UInt64} (hx : r.value x = 0) : r.split x = (r.width, 0) := by
  have hres : r.residue x = 0 := by
    rw [← r.value_eq_zero_iff (r.reduced_residue x), value_residue]
    exact hx
  simp [split, hres]

theorem and_one_eq_one_iff (x : UInt64) : x &&& 1 = 1 ↔ x.toNat % 2 = 1 := by
  rw [← UInt64.toNat_inj, UInt64.toNat_and, UInt64.toNat_one, Nat.and_one_is_mod]

/-- A word that does not denote zero is the product of a power of two below
`2^w` and an odd word, and these two are what `split` finds. -/
theorem split_spec {x : UInt64} (hx : r.value x ≠ 0) :
    (r.split x).1 < r.width ∧ (r.split x).2.toNat % 2 = 1 ∧
      (r.residue x).toNat = 2 ^ (r.split x).1 * (r.split x).2.toNat := by
  have hv : r.residue x ≠ 0 := by
    rw [ne_eq, ← r.value_eq_zero_iff (r.reduced_residue x), value_residue]
    exact hx
  have hlt : (r.residue x).toNat < 2 ^ r.width := r.reduced_residue x
  by_cases hodd : r.residue x &&& 1 = 1
  · simp only [split, if_neg hv, if_pos hodd]
    exact ⟨r.width_pos, (and_one_eq_one_iff _).mp hodd, by simp⟩
  · have hpos : (r.residue x).toNat ≠ 0 := fun h => hv (UInt64.toNat_inj.mp h)
    obtain ⟨k, d, hd, he⟩ := Nat.exists_eq_two_pow_mul_odd hpos
    have hk : k < r.width := by
      have hle : 2 ^ k ≤ 2 ^ k * d := Nat.le_mul_of_pos_right _ hd.pos
      exact (Nat.pow_lt_pow_iff_right (by decide : 1 < 2)).mp (by omega)
    have hlow := toNat_and_negated (Nat.odd_iff.mp hd) he
    have hexp : r.table.exponent (r.residue x &&& (~~~r.residue x + 1)) = k := by
      rw [r.table_eq]
      exact PowerTable.exponent_two_pow r.width_le hk hlow
    have hshift : (r.residue x >>> UInt64.ofNat k).toNat = d := by
      rw [toNat_shiftRight_ofNat (hk.trans_le r.width_le), he,
        Nat.mul_div_cancel_left _ (Nat.two_pow_pos k)]
    simp only [split, if_neg hv, if_neg hodd, hexp, hshift]
    exact ⟨hk, Nat.odd_iff.mp hd, he⟩

theorem value_eq_zero_iff_dvd {x : UInt64} : r.value x = 0 ↔ 2 ^ r.width ∣ x.toNat :=
  ZMod.natCast_eq_zero_iff x.toNat (2 ^ r.width)

/-- Bits from position `w` on do not count among the trailing zeros of a word
that does not denote zero. -/
theorem ctz_eq_split {x : UInt64} (hx : r.value x ≠ 0) :
    x.toBitVec.ctz.toNat = (r.split x).1 := by
  obtain ⟨hk, hodd, he⟩ := r.split_spec hx
  have hbit (i : ℕ) (hi : i ≤ (r.split x).1) : x.toBitVec.getLsbD i =
      (decide ((r.split x).1 ≤ i) && (r.split x).2.toNat.testBit (i - (r.split x).1)) := by
    rw [← Nat.testBit_two_pow_mul, ← he, toNat_residue, Nat.testBit_mod_two_pow,
      decide_eq_true (by omega), Bool.true_and]
    rfl
  refine ctz_eq_of_getLsbD ?_ fun i hi => ?_
  · simp [hbit _ le_rfl, Nat.testBit_zero, hodd]
  · rw [hbit i hi.le, decide_eq_false (by omega), Bool.false_and]

/-- For each width in range the ring exists, and looking up the lowest set bit
splits every word exactly: a multiple of `2^w` into `(w, 0)`, and every other
word into the number of its trailing zeros and an odd part below `2^w`. -/
theorem split_exact {w : ℕ} (hpos : 0 < w) (hle : w ≤ 64) :
    ∃ r : WordRing, ofWidth w = .ok r ∧ ∀ x : UInt64,
      (2 ^ w ∣ x.toNat → r.split x = (w, 0)) ∧
      (¬2 ^ w ∣ x.toNat → ∃ k d, r.split x = (k, d) ∧ k < w ∧ d.toNat % 2 = 1 ∧
        d.toNat < 2 ^ w ∧ d.toNat * 2 ^ k = x.toNat % 2 ^ w ∧ k = x.toBitVec.ctz.toNat) := by
  obtain ⟨r, hr, rfl⟩ := width_of_ofWidth hpos hle
  refine ⟨r, hr, fun x => ⟨fun hdvd => ?_, fun hndvd => ?_⟩⟩
  · exact r.split_of_value_eq_zero (r.value_eq_zero_iff_dvd.mpr hdvd)
  · have hx : r.value x ≠ 0 := mt r.value_eq_zero_iff_dvd.mp hndvd
    obtain ⟨hk, hodd, he⟩ := r.split_spec hx
    have hlt : (r.split x).2.toNat < 2 ^ r.width := by
      refine lt_of_le_of_lt ?_ (r.reduced_residue x)
      rw [he]
      exact Nat.le_mul_of_pos_left _ (Nat.two_pow_pos _)
    refine ⟨(r.split x).1, (r.split x).2, rfl, hk, hodd, hlt, ?_, (r.ctz_eq_split hx).symm⟩
    rw [← toNat_residue, he, Nat.mul_comm]

/-- Modulo 7 the first and the fourth power of two agree, so the table for width
7 has another modulus. The word is not reduced. -/
theorem split_exact_seven : ∃ r : WordRing, ofWidth 7 = .ok r ∧ ¬2 ^ 7 ∣ (168 : UInt64).toNat ∧
    ∃ k d, r.split 168 = (k, d) ∧ d.toNat * 2 ^ k = 40 ∧ d.toNat % 2 = 1 ∧ k = 3 := by
  obtain ⟨r, hr, hsplit⟩ := split_exact (w := 7) (by decide) (by decide)
  have hndvd : ¬2 ^ 7 ∣ (168 : UInt64).toNat := by decide
  obtain ⟨k, d, he, -, hodd, -, hmul, hk⟩ := (hsplit 168).2 hndvd
  exact ⟨r, hr, hndvd, k, d, he, hmul, hodd, hk.trans (ctz_eq_of_getLsbD (by decide) (by decide))⟩

/-- Every word denotes its power of two times its odd part. -/
theorem value_eq_two_pow_mul (x : UInt64) :
    r.value x = 2 ^ (r.split x).1 * r.value (r.split x).2 := by
  by_cases hx : r.value x = 0
  · rw [r.split_of_value_eq_zero hx, value_zero, mul_zero, hx]
  · obtain ⟨-, -, he⟩ := r.split_spec hx
    rw [← value_residue, value, he, Nat.cast_mul, Nat.cast_pow, Nat.cast_ofNat]
    rfl

theorem isUnit_oddPart {x : UInt64} (hx : r.value x ≠ 0) : IsUnit (r.value (r.split x).2) :=
  r.isUnit_value_of_odd (r.split_spec hx).2.1

theorem valuation_lt_iff {x : UInt64} : r.valuation x < r.width ↔ r.value x ≠ 0 := by
  constructor
  · intro h hx
    rw [valuation, r.split_of_value_eq_zero hx] at h
    omega
  · intro hx
    exact (r.split_spec hx).1

theorem valuation_le (x : UInt64) : r.valuation x ≤ r.width := by
  by_cases hx : r.value x = 0
  · rw [valuation, r.split_of_value_eq_zero hx]
  · exact (r.valuation_lt_iff.mpr hx).le

/-- The valuation is the exponent of the largest power of two, up to `2^w`,
that divides the element. -/
theorem two_pow_dvd_value_iff {k : ℕ} (hk : k ≤ r.width) {x : UInt64} :
    2 ^ k ∣ r.value x ↔ k ≤ r.valuation x := by
  constructor
  · rintro ⟨c, hc⟩
    by_contra hlt
    have hx : r.value x ≠ 0 := r.valuation_lt_iff.mp (by omega)
    -- multiplying by the missing power of two kills the multiple but not the word
    have hkill : (2 : r.Elem) ^ (r.width - 1) * r.value (r.split x).2 = 0 := by
      have hsum : r.width - 1 = (r.width - 1 - r.valuation x) + (r.split x).1 := by
        have := r.valuation_lt_iff.mpr hx
        have : r.valuation x = (r.split x).1 := rfl
        omega
      rw [hsum, pow_add, mul_assoc, ← r.value_eq_two_pow_mul, hc, ← mul_assoc, ← pow_add,
        r.two_pow_eq_zero (by omega), zero_mul]
    have hzero := (r.isUnit_oddPart hx).mul_left_eq_zero.mp hkill
    exact r.two_pow_ne_zero (Nat.sub_lt r.width_pos Nat.one_pos) hzero
  · intro hle
    rw [r.value_eq_two_pow_mul x]
    exact Dvd.dvd.mul_right (pow_dvd_pow 2 hle) _

end WordRing

end AffineRelations
