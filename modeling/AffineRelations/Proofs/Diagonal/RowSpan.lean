import AffineRelations.Proofs.Diagonal.Canonical
import AffineRelations.Proofs.GeneratorSet.Stored

/-!
# The diagonal form depends on the rows' span only

The vectors that `c * M` takes to zero are a kernel, and the image that belongs
to it is `c` times the span of the rows of `M`. So two matrices whose rows span
one module have equal counts, and with them one diagonal. A generator set keeps
the span of what was inserted, hence it may be diagonalised in place of the
rows that it was built from.
-/
namespace AffineRelations

section RowSpan
variable {R : Type*} [CommRing R] {k : ℕ}

/-- `c` times the product with `M`. -/
def scaledVecMul (c : R) (M : Matrix (Fin k) (Fin k) R) : (Fin k → R) →ₗ[R] (Fin k → R) :=
  LinearMap.lsmul R (Fin k → R) c ∘ₗ M.vecMulLinear

theorem coe_ker_scaledVecMul (c : R) (M : Matrix (Fin k) (Fin k) R) :
    (LinearMap.ker (scaledVecMul c M) : Set (Fin k → R)) = annihilated c M := by
  ext x
  rw [annihilated, Set.mem_ofPred_eq, Matrix.smul_vecMul]
  rfl

theorem range_scaledVecMul (c : R) (M : Matrix (Fin k) (Fin k) R) :
    LinearMap.range (scaledVecMul c M) =
      (Submodule.span R (Set.range M.row)).map (LinearMap.lsmul R (Fin k → R) c) := by
  rw [scaledVecMul, LinearMap.range_comp, range_vecMulLinear]

theorem ncard_annihilated_mul_card_range [Finite R] (c : R) (M : Matrix (Fin k) (Fin k) R) :
    (annihilated c M).ncard * Nat.card (LinearMap.range (scaledVecMul c M)) =
      Nat.card (Fin k → R) := by
  rw [Submodule.card_eq_card_quotient_mul_card (LinearMap.ker (scaledVecMul c M)),
    Nat.card_congr (scaledVecMul c M).quotKerEquivRange.toEquiv, ← coe_ker_scaledVecMul,
    ← Nat.card_coe_set_eq]
  rfl

/-- The counts are known from the span of the rows. -/
theorem ncard_annihilated_of_span_eq [Finite R] {M N : Matrix (Fin k) (Fin k) R}
    (h : Submodule.span R (Set.range M.row) = Submodule.span R (Set.range N.row)) (c : R) :
    (annihilated c M).ncard = (annihilated c N).ncard := by
  have hrange : LinearMap.range (scaledVecMul c M) = LinearMap.range (scaledVecMul c N) := by
    rw [range_scaledVecMul, range_scaledVecMul, h]
  have hM := ncard_annihilated_mul_card_range c M
  rw [hrange, ← ncard_annihilated_mul_card_range c N] at hM
  exact Nat.eq_of_mul_eq_mul_right Nat.card_pos hM

end RowSpan

namespace WordRing
variable {r : WordRing} {k : ℕ}

theorem span_row_view {m : WordMatrix} (hm : m.Square k) :
    Submodule.span r.Elem (Set.range (r.view k k m).row) = r.span k m.toRows := by
  rw [span]
  congr 1
  ext x
  constructor
  · rintro ⟨i, rfl⟩
    refine ⟨m.rowVec i, ?_, r.coords_rowVec hm.cols_eq i⟩
    exact List.mem_map_of_mem (List.mem_range.mpr (hm.rows_eq ▸ i.isLt))
  · rintro ⟨v, hv, rfl⟩
    obtain ⟨i, hi, rfl⟩ := List.mem_map.mp hv
    have hi : i < k := hm.rows_eq ▸ List.mem_range.mp hi
    exact ⟨⟨i, hi⟩, (r.coords_rowVec hm.cols_eq ⟨i, hi⟩).symm⟩

theorem rowVec_shape {m : WordMatrix} (hm : m.Square k) (hred : r.ReducedMatrix k k m)
    {v : WordVec} (hv : v ∈ m.toRows) : v.length = k ∧ r.ReducedVec v := by
  obtain ⟨i, hi, rfl⟩ := List.mem_map.mp hv
  have hi : i < k := hm.rows_eq ▸ List.mem_range.mp hi
  refine ⟨by simp [WordMatrix.rowVec, hm.cols_eq], ?_⟩
  intro x hx
  obtain ⟨j, hj, rfl⟩ := List.mem_map.mp hx
  exact hred i hi j (hm.cols_eq ▸ List.mem_range.mp hj)

theorem span_replicate_zero (m : ℕ) : r.span k (List.replicate m (List.replicate k 0)) = ⊥ := by
  induction m with
  | zero => exact r.span_nil
  | succ m ih =>
      have hzero : r.coords k (List.replicate k 0) = 0 := by
        funext i
        simp [coords]
      rw [List.replicate_succ, span_cons, ih, hzero, Submodule.span_zero_singleton, sup_bot_eq]

theorem span_toRows_matrix {s : GeneratorSet} (h : s.Fits r k) :
    r.span k s.matrix.toRows = r.span k s.vectors := by
  rw [h.toRows_matrix, span_append, span_replicate_zero, sup_bot_eq]

theorem span_of_perm {us vs : List WordVec} (h : us.Perm vs) : r.span k us = r.span k vs := by
  simp only [span, h.mem_iff]

theorem d_eq_of_span_eq {a b : WordMatrix} (ha : a.Square k) (hb : b.Square k)
    (hspan : r.span k a.toRows = r.span k b.toRows) {f f' : DiagonalForm} {es es' : List ℕ}
    (hf : Finished r (r.view k k a) es.length es f)
    (hf' : Finished r (r.view k k b) es'.length es' f')
    (hdiag : IsPowerDiagonal es (r.view k k f.d))
    (hdiag' : IsPowerDiagonal es' (r.view k k f'.d)) : f.d = f'.d := by
  refine d_eq_of_ncard hf hf' hdiag hdiag' (ncard_annihilated_of_span_eq ?_)
  rw [span_row_view ha, span_row_view hb, hspan]

/-- The rows of a matrix can be inserted one by one, in any order. The set that
results has at most as many vectors as there are rows, and the matrix of its
vectors, filled up with zeros, has the diagonal of the first matrix. -/
theorem diagonalize_incremental (hk : 0 < k) {a : WordMatrix} (ha : a.Square k)
    (hred : r.ReducedMatrix k k a) {vs : List WordVec} (hperm : vs.Perm a.toRows) :
    (∃ s, GeneratorSet.Built r k vs s) ∧
    ∀ s, GeneratorSet.Built r k vs s →
      s.size ≤ k ∧ s.matrix.rows = k ∧ s.matrix.cols = k ∧
      s.matrix.toRows = s.vectors ++ List.replicate (k - s.size) (List.replicate k 0) ∧
      ∃ f f', r.diagonalize a = .ok f ∧ r.diagonalize s.matrix = .ok f' ∧ f'.d = f.d := by
  refine ⟨GeneratorSet.exists_built fun v hv => rowVec_shape ha hred (hperm.mem_iff.mp hv), ?_⟩
  intro s hs
  have hfits := hs.fits
  have hb := hfits.square_matrix
  have hspan : r.span k s.matrix.toRows = r.span k a.toRows := by
    rw [span_toRows_matrix hfits, hs.span_vectors, span_of_perm hperm]
  obtain ⟨f, es, hrun, hf, hdiag⟩ := diagonalize_finished hk ha hred
  obtain ⟨f', es', hrun', hf', hdiag'⟩ := diagonalize_finished hk hb hfits.reduced_matrix
  exact ⟨hfits.length_slots ▸ s.size_le_dim, hb.rows_eq, hb.cols_eq, hfits.toRows_matrix,
    f, f', hrun, hrun', d_eq_of_span_eq hb ha hspan hf' hf hdiag' hdiag⟩

/-- Modulo 8, the row `(4, 1)` and then the row `(2, 1)`. -/
theorem diagonalize_incremental_two_rows : ∃ (r : WordRing) (s : GeneratorSet)
    (f f' : DiagonalForm), r.width = 3 ∧ GeneratorSet.Built r 2 [[4, 1], [2, 1]] s ∧
    r.diagonalize ⟨2, 2, #[2, 1, 4, 1], rfl⟩ = .ok f ∧
    r.diagonalize s.matrix = .ok f' ∧ f'.d = f.d := by
  let r := ofBits 3 (by decide) (by decide)
  have hperm : List.Perm [[4, 1], [2, 1]]
      (WordMatrix.toRows ⟨2, 2, #[2, 1, 4, 1], rfl⟩) := List.Perm.swap _ _ _
  obtain ⟨⟨s, hs⟩, h⟩ :=
    diagonalize_incremental (r := r) (k := 2) (by decide) ⟨rfl, rfl⟩ (by decide) hperm
  obtain ⟨-, -, -, -, f, f', hf, hf', hd⟩ := h s hs
  exact ⟨r, s, f, f', rfl, hs, hf, hf', hd⟩

end WordRing

end AffineRelations
