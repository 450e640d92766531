import AffineRelations.Proofs.Word.MatrixView
import AffineRelations.Word.Diagonal

/-!
# Row and column operations

Each operation of the elimination multiplies by an invertible matrix, from the
left if it is an operation on rows and from the right if it is one on columns.
A combination of two rows takes the row that it changes with an odd factor.
-/
namespace AffineRelations

section Elementary
variable {R : Type*} [CommRing R] {k : ℕ}

/-- Multiplication from the left by this matrix takes row `i` to
`a * row i - c * row p`. -/
def rowCombination (i p : Fin k) (a c : R) : Matrix (Fin k) (Fin k) R :=
  (1 : Matrix (Fin k) (Fin k) R).updateRow i
    (a • (1 : Matrix (Fin k) (Fin k) R) i - c • (1 : Matrix (Fin k) (Fin k) R) p)

/-- Multiplication from the left by this matrix exchanges rows `i` and `p`. -/
def rowExchange (R : Type*) [CommRing R] (i p : Fin k) : Matrix (Fin k) (Fin k) R :=
  (1 : Matrix (Fin k) (Fin k) R).submatrix (Equiv.swap i p) id

theorem rowCombination_mul_apply (i p : Fin k) (a c : R) (M : Matrix (Fin k) (Fin k) R)
    (x y : Fin k) : (rowCombination i p a c * M) x y =
      if x = i then a * M i y - c * M p y else M x y := by
  have hrow (j : Fin k) : Matrix.vecMul ((1 : Matrix (Fin k) (Fin k) R) j) M = M j := by
    rw [← Matrix.mul_apply_eq_vecMul, one_mul]
  rw [rowCombination, Matrix.updateRow_mul, one_mul, Matrix.sub_vecMul, Matrix.smul_vecMul,
    Matrix.smul_vecMul, hrow, hrow, Matrix.updateRow_apply]
  rfl

theorem mul_rowCombination_transpose_apply (j p : Fin k) (a c : R)
    (M : Matrix (Fin k) (Fin k) R) (x y : Fin k) :
    (M * (rowCombination j p a c).transpose) x y =
      if y = j then a * M x j - c * M x p else M x y := by
  have h := rowCombination_mul_apply j p a c M.transpose y x
  rwa [← Matrix.transpose_apply (_ * _), Matrix.transpose_mul, Matrix.transpose_transpose] at h

theorem rowExchange_mul_apply (i p : Fin k) (M : Matrix (Fin k) (Fin k) R) (x y : Fin k) :
    (rowExchange R i p * M) x y = M (Equiv.swap i p x) y := by
  have h := Matrix.one_submatrix_mul (Equiv.swap i p) (Equiv.refl (Fin k)) M
  exact congrFun (congrFun h x) y

theorem mul_rowExchange_transpose_apply (j p : Fin k) (M : Matrix (Fin k) (Fin k) R)
    (x y : Fin k) : (M * (rowExchange R j p).transpose) x y = M x (Equiv.swap j p y) := by
  have h := rowExchange_mul_apply j p M.transpose y x
  rwa [← Matrix.transpose_apply (_ * _), Matrix.transpose_mul, Matrix.transpose_transpose] at h

theorem isUnit_rowCombination {i p : Fin k} {a c : R} (ha : IsUnit a) (h : i ≠ p ∨ c = 0) :
    IsUnit (rowCombination i p a c) := by
  have hself : (1 : Matrix (Fin k) (Fin k) R).updateRow i ((1 : Matrix (Fin k) (Fin k) R) i) = 1 :=
    Matrix.updateRow_eq_self _ i
  have hdet : (rowCombination i p a c).det = a := by
    rw [rowCombination, sub_eq_add_neg, ← neg_smul, Matrix.det_updateRow_add,
      Matrix.det_updateRow_smul, Matrix.det_updateRow_smul, hself, Matrix.det_one, mul_one]
    rcases h with h | h
    · rw [Matrix.det_updateRow_eq_zero h.symm, mul_zero, add_zero]
    · rw [h, neg_zero, zero_mul, add_zero]
  rwa [Matrix.isUnit_iff_isUnit_det, hdet]

theorem isUnit_rowExchange (i p : Fin k) : IsUnit (rowExchange R i p) := by
  have hself : rowExchange R i p * rowExchange R i p = 1 := by
    ext x y
    rw [rowExchange_mul_apply, rowExchange, Matrix.submatrix_apply, Equiv.swap_apply_self, id]
  exact IsUnit.of_mul_eq_one _ hself

theorem isUnit_transpose {M : Matrix (Fin k) (Fin k) R} (h : IsUnit M) : IsUnit M.transpose := by
  rwa [Matrix.isUnit_iff_isUnit_det, Matrix.det_transpose, ← Matrix.isUnit_iff_isUnit_det]

end Elementary

namespace WordRing
variable (r : WordRing) {k : ℕ} {m : WordMatrix}

theorem view_rowCombined (hm : m.Square k) (i p : Fin k) (a c : UInt64) :
    r.view k k (r.rowCombined m i p a c) =
      rowCombination i p (r.value a) (r.value c) * r.view k k m := by
  obtain ⟨rfl, hcols⟩ := hm
  ext x y
  rw [rowCombined, hcols, view_ofFn, Matrix.of_apply, rowCombination_mul_apply]
  by_cases h : x = i
  · simp [h]
  · simp [h, Fin.val_ne_of_ne h]

theorem view_colCombined (hm : m.Square k) (j p : Fin k) (a c : UInt64) :
    r.view k k (r.colCombined m j p a c) =
      r.view k k m * (rowCombination j p (r.value a) (r.value c)).transpose := by
  obtain ⟨rfl, hcols⟩ := hm
  ext x y
  rw [colCombined, hcols, view_ofFn, Matrix.of_apply, mul_rowCombination_transpose_apply]
  by_cases h : y = j
  · simp [h]
  · simp [h, Fin.val_ne_of_ne h]

theorem view_rowScaled (hm : m.Square k) (i : Fin k) (c : UInt64) :
    r.view k k (r.rowScaled m i c) = rowCombination i i (r.value c) 0 * r.view k k m := by
  obtain ⟨rfl, hcols⟩ := hm
  ext x y
  rw [rowScaled, hcols, view_ofFn, Matrix.of_apply, rowCombination_mul_apply]
  by_cases h : x = i
  · simp [h]
  · simp [h, Fin.val_ne_of_ne h]

theorem val_swap (i p x : Fin k) :
    (Equiv.swap i p x : Fin k).val =
      if x.val = i then p.val else if x.val = p then i.val else x := by
  rw [Equiv.swap_apply_def]
  split_ifs <;> simp_all [Fin.ext_iff]

theorem view_rowsExchanged (hm : m.Square k) (i p : Fin k) :
    r.view k k (m.rowsExchanged i p) = rowExchange r.Elem i p * r.view k k m := by
  obtain ⟨rfl, hcols⟩ := hm
  ext x y
  rw [WordMatrix.rowsExchanged, hcols, view_ofFn, Matrix.of_apply, rowExchange_mul_apply,
    view_apply, val_swap]

theorem view_colsExchanged (hm : m.Square k) (j p : Fin k) :
    r.view k k (m.colsExchanged j p) = r.view k k m * (rowExchange r.Elem j p).transpose := by
  obtain ⟨rfl, hcols⟩ := hm
  ext x y
  rw [WordMatrix.colsExchanged, hcols, view_ofFn, Matrix.of_apply,
    mul_rowExchange_transpose_apply, view_apply, val_swap]

end WordRing

end AffineRelations
