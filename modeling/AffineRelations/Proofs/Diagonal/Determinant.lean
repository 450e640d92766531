import AffineRelations.Proofs.Diagonal.Canonical

/-!
# The determinant of a diagonal form

Invertible factors change a determinant by units, and the determinant of a
diagonal of powers of two is the power with the sum of the exponents. So the
exponents on the diagonal of a form add up to the valuation of the determinant
of the matrix, as long as they stay below `w`. From there on the determinant is
zero, which has valuation `w`.
-/
namespace AffineRelations

/-- The entries of a square matrix as integers. -/
def WordMatrix.integers (k : ℕ) (m : WordMatrix) : Matrix (Fin k) (Fin k) ℤ :=
  Matrix.of fun i j => ((m.entry i j).toNat : ℤ)

namespace WordRing
variable (r : WordRing) {k : ℕ}

/-- The determinant over the integers, reduced modulo `2^w`. -/
def determinant (k : ℕ) (m : WordMatrix) : UInt64 :=
  UInt64.ofNat ((m.integers k).det % 2 ^ r.width).toNat

theorem determinant_eq_word (m : WordMatrix) :
    r.determinant k m = r.word ((m.integers k).det : r.Elem) := by
  rw [determinant, ← toNat_word_intCast, Int.toNat_natCast, UInt64.ofNat_toNat]

theorem value_determinant (m : WordMatrix) :
    r.value (r.determinant k m) = (r.view k k m).det := by
  have hview : (m.integers k).map (Int.castRingHom r.Elem) = r.view k k m := by
    ext i j
    simp [WordMatrix.integers, value]
  rw [determinant_eq_word, value_word, ← hview, ← RingHom.mapMatrix_apply, ← RingHom.map_det,
    eq_intCast]

variable {r}

theorem valuation_eq_of_associated {x y : UInt64} (h : Associated (r.value x) (r.value y)) :
    r.valuation x = r.valuation y := by
  apply Nat.le_antisymm
  · rw [← r.two_pow_dvd_value_iff (r.valuation_le x), ← h.dvd_iff_dvd_right,
      r.two_pow_dvd_value_iff (r.valuation_le x)]
  · rw [← r.two_pow_dvd_value_iff (r.valuation_le y), h.dvd_iff_dvd_right,
      r.two_pow_dvd_value_iff (r.valuation_le y)]

theorem valuation_pow2 (n : ℕ) : r.valuation (r.pow2 (n : Int)) = min r.width n := by
  by_cases hn : n < r.width
  · rw [Nat.min_eq_right hn.le]
    apply Nat.le_antisymm
    · by_contra hlt
      -- twice the power would divide the power, and the missing factor kills both
      have hdvd : (2 : r.Elem) ^ (n + 1) ∣ 2 ^ n := by
        rw [← r.value_pow2 n, r.two_pow_dvd_value_iff hn]
        omega
      obtain ⟨c, hc⟩ := hdvd
      have hsplit : r.width - 1 = n + (r.width - 1 - n) := by omega
      apply r.two_pow_ne_zero (k := r.width - 1) (by omega)
      rw [hsplit, pow_add, hc, mul_right_comm, ← pow_add, r.two_pow_eq_zero (by omega), zero_mul]
    · rw [← r.two_pow_dvd_value_iff hn.le, value_pow2]
  · have hzero : r.value (r.pow2 (n : Int)) = 0 := by
      rw [value_pow2, r.two_pow_eq_zero (by omega)]
    rw [valuation, r.split_of_value_eq_zero hzero]
    omega

/-- A word that denotes a power of two, up to a unit, has the power's exponent
as its valuation. -/
theorem valuation_of_associated_two_pow {x : UInt64} {n : ℕ}
    (h : Associated (r.value x) (2 ^ n)) : r.valuation x = min r.width n := by
  rw [← r.value_pow2 n] at h
  rw [valuation_eq_of_associated h, valuation_pow2]

theorem det_powerDiagonal (e : Fin k → ℕ) : (r.powerDiagonal e).det = 2 ^ ∑ i, e i := by
  rw [powerDiagonal, Matrix.det_diagonal, Finset.prod_pow_eq_pow_sum]

theorem eq_zero_of_isUnit_two_pow {n : ℕ} (h : IsUnit ((2 : r.Elem) ^ n)) : n = 0 := by
  by_contra hn
  have hpow : ((2 : r.Elem) ^ n) ^ r.width = 0 := by
    rw [← pow_mul]
    exact r.two_pow_eq_zero (Nat.le_mul_of_pos_left _ (Nat.pos_of_ne_zero hn))
  have hunit := h.pow r.width
  rw [hpow, isUnit_zero_iff] at hunit
  apply r.two_pow_ne_zero r.width_pos
  rw [pow_zero, hunit]

theorem reducedMatrix_identityOf : r.ReducedMatrix k k (identityOf k) := by
  intro i hi j hj
  rw [identityOf, WordMatrix.entry_ofFn _ hi hj]
  split_ifs
  · exact r.reduced_one
  · exact r.reduced_zero

section Form
variable {A : Matrix (Fin k) (Fin k) r.Elem} {f : DiagonalForm} {es : List ℕ}

theorem associated_det_d (hf : Derived r A f) : Associated A.det (r.view k k f.d).det := by
  have ht := (Matrix.isUnit_iff_isUnit_det _).mp hf.isUnit_t
  have hs := (Matrix.isUnit_iff_isUnit_det _).mp hf.isUnit_s
  rw [← hf.product_eq, Matrix.det_mul, Matrix.det_mul]
  exact (associated_unit_mul_right _ _ ht).trans (associated_mul_unit_right _ _ hs)

/-- The exponents on the diagonal, with `w` for each zero. -/
theorem ranks_eq (hf : Finished r A es.length es f)
    (hdiag : IsPowerDiagonal es (r.view k k f.d)) :
    f.ranks r = (List.range k).map fun i => es.getD i r.width := by
  rw [DiagonalForm.ranks, hf.square_d.rows_eq]
  refine List.map_congr_left fun i hi => ?_
  have hentry := congrFun (congrFun hdiag.eq_powerDiagonal ⟨i, List.mem_range.mp hi⟩)
    ⟨i, List.mem_range.mp hi⟩
  rw [view_apply, powerDiagonal, Matrix.diagonal_apply_eq] at hentry
  rw [valuation_of_associated_two_pow (.of_eq hentry)]
  exact Nat.min_eq_right (getD_le_width hf.lt_width i)

theorem det_view_d (hf : Finished r A es.length es f)
    (hdiag : IsPowerDiagonal es (r.view k k f.d)) :
    (r.view k k f.d).det = 2 ^ (f.ranks r).sum := by
  rw [hdiag.eq_powerDiagonal, det_powerDiagonal, ranks_eq hf hdiag,
    ← Finset.sum_range fun i => es.getD i r.width]
  rfl

theorem isUnit_iff_d_eq_identityOf (hf : Finished r A es.length es f)
    (hdiag : IsPowerDiagonal es (r.view k k f.d)) : IsUnit A ↔ f.d = identityOf k := by
  have hdet : IsUnit A ↔ IsUnit (r.view k k f.d).det := by
    rw [Matrix.isUnit_iff_isUnit_det, (associated_det_d hf.toDerived).isUnit_iff]
  rw [hdet]
  constructor
  · intro hunit
    -- no power of two but 1 is a unit, so all exponents are zero
    rw [hdiag.eq_powerDiagonal, det_powerDiagonal] at hunit
    have hzero := Finset.sum_eq_zero_iff.mp (eq_zero_of_isUnit_two_pow hunit)
    have hone : r.view k k f.d = 1 := by
      rw [hdiag.eq_powerDiagonal, powerDiagonal, ← Matrix.diagonal_one]
      congr 1
      funext i
      rw [hzero i (Finset.mem_univ i), pow_zero]
    exact r.view_inj ⟨hf.square_d.rows_eq, hf.square_d.cols_eq⟩ ⟨rfl, rfl⟩ hf.reduced_d
      reducedMatrix_identityOf (hone.trans r.view_identityOf.symm)
  · intro hd
    rw [hd, view_identityOf, Matrix.det_one]
    exact isUnit_one

end Form

/-- The exponents on the diagonal of a matrix's form, with `w` for each zero,
add up to the valuation of its determinant modulo `2^w`, or to `w` and more if
the determinant is zero there. The matrix is invertible if and only if the
diagonal matrix is the identity. -/
theorem valuation_determinant (hk : 0 < k) {a : WordMatrix} (ha : a.Square k)
    (hred : r.ReducedMatrix k k a) :
    ∃ f, r.diagonalize a = .ok f ∧
      r.valuation (r.determinant k a) = min r.width (f.ranks r).sum ∧
      (IsUnit (r.view k k a) ↔ f.d = identityOf k) := by
  obtain ⟨f, es, hrun, hf, hdiag⟩ := diagonalize_finished hk ha hred
  refine ⟨f, hrun, ?_, isUnit_iff_d_eq_identityOf hf hdiag⟩
  apply valuation_of_associated_two_pow
  rw [value_determinant, ← det_view_d hf hdiag]
  exact associated_det_d hf.toDerived

/-- Modulo 8, the exponents of a matrix with determinant 16 pass the width. -/
theorem valuation_determinant_sixteen : ∃ (r : WordRing) (a : WordMatrix) (f : DiagonalForm),
    r.width = 3 ∧ a = ⟨3, 3, #[4, 2, 2, 2, 2, 4, 6, 2, 4], rfl⟩ ∧ r.diagonalize a = .ok f ∧
    f.ranks r = [1, 1, 2] ∧ r.valuation (r.determinant 3 a) = 3 ∧ ¬IsUnit (r.view 3 3 a) := by
  let r := ofBits 3 (by decide) (by decide)
  let a : WordMatrix := ⟨3, 3, #[4, 2, 2, 2, 2, 4, 6, 2, 4], rfl⟩
  obtain ⟨f, hrun, hval, hunit⟩ :=
    valuation_determinant (r := r) (k := 3) (by decide) (a := a) ⟨rfl, rfl⟩ (by decide)
  have hform : (r.diagonalize a).toOption.map (fun f =>
      (f.ranks r, decide (f.d = identityOf 3))) = some ([1, 1, 2], false) := by decide +kernel
  rw [hrun] at hform
  obtain ⟨hranks, hd⟩ := Prod.mk.inj (Option.some.inj hform)
  refine ⟨r, a, f, rfl, rfl, hrun, hranks, ?_, ?_⟩
  · rw [hval, hranks]
    decide
  · rw [hunit]
    exact of_decide_eq_false hd

end WordRing

end AffineRelations
