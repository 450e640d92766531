import AffineRelations.Proofs.Diagonal.Form

/-!
# The diagonal form is canonical

Matrices that differ by invertible factors on both sides have one diagonal
form. Determinants of minors do not show this, since they vanish modulo `2^w`
too early. Instead the vectors are counted that a multiple of the matrix takes
to zero: the count does not change with invertible factors. Two diagonals of
ascending powers of two that first differ in place `i` are told apart by the
multiple that just kills the greater of the two powers. It kills all that
follows on that diagonal, but not the lesser power on the other.
-/
namespace AffineRelations

section Annihilated
variable {R : Type*} [CommRing R] {k : ℕ}

/-- The vectors that `c * M` takes to zero. -/
def annihilated (c : R) (M : Matrix (Fin k) (Fin k) R) : Set (Fin k → R) :=
  {x | Matrix.vecMul (c • x) M = 0}

theorem ncard_annihilated_mul {P Q : Matrix (Fin k) (Fin k) R} (hP : IsUnit P) (hQ : IsUnit Q)
    (c : R) (M : Matrix (Fin k) (Fin k) R) :
    (annihilated c (P * M * Q)).ncard = (annihilated c M).ncard := by
  have hinj := Matrix.vecMul_injective_of_isUnit hP
  have hsurj := Matrix.vecMul_surjective_iff_isUnit.mpr hP
  have hker (y : Fin k → R) : Matrix.vecMul y Q = 0 ↔ y = 0 := by
    rw [← (Matrix.vecMul_injective_of_isUnit hQ).eq_iff (a := y), Matrix.zero_vecMul]
  have hset : annihilated c (P * M * Q) =
      Set.preimage (fun x => Matrix.vecMul x P) (annihilated c M) := by
    ext x
    simp only [annihilated, Set.mem_preimage, Set.mem_ofPred_eq]
    rw [← Matrix.vecMul_vecMul, hker, ← Matrix.vecMul_vecMul, Matrix.smul_vecMul]
  rw [hset, Set.ncard_preimage_of_injective_subset_range hinj (hsurj.range_eq ▸ Set.subset_univ _)]

end Annihilated

namespace WordRing
variable {r : WordRing} {k : ℕ}

/-- The diagonal matrix of the powers of two with the given exponents. -/
def powerDiagonal (r : WordRing) (e : Fin k → ℕ) : Matrix (Fin k) (Fin k) r.Elem :=
  Matrix.diagonal fun i => 2 ^ e i

theorem mem_annihilated_powerDiagonal {e : Fin k → ℕ} {j : ℕ} {x : Fin k → r.Elem} :
    x ∈ annihilated (2 ^ j) (r.powerDiagonal e) ↔ ∀ i, 2 ^ (j + e i) * x i = 0 := by
  rw [annihilated, Set.mem_ofPred_eq, funext_iff]
  refine forall_congr' fun i => ?_
  rw [powerDiagonal, Matrix.vecMul_diagonal, Pi.smul_apply, smul_eq_mul, Pi.zero_apply, pow_add,
    mul_right_comm]

/-- The multiple that just kills the power in place `i` on the second diagonal
kills fewer vectors with the first. -/
theorem ncard_annihilated_lt {e e' : Fin k → ℕ} (hmono : Monotone e') {i : Fin k}
    (hbefore : ∀ l < i, e l = e' l) (hlt : e i < e' i) (hle : e' i ≤ r.width) :
    (annihilated (2 ^ (r.width - e' i)) (r.powerDiagonal e)).ncard <
      (annihilated (2 ^ (r.width - e' i)) (r.powerDiagonal e')).ncard := by
  have hkilled {l : Fin k} (hl : i ≤ l) : (2 : r.Elem) ^ (r.width - e' i + e' l) = 0 := by
    have := hmono hl
    exact r.two_pow_eq_zero (by omega)
  refine Set.ncard_lt_ncard ⟨?_, ?_⟩ (Set.toFinite _)
  · intro x hx
    rw [mem_annihilated_powerDiagonal] at hx ⊢
    intro l
    rcases lt_or_ge l i with hl | hl
    · rw [← hbefore l hl]
      exact hx l
    · rw [hkilled hl, zero_mul]
  · intro hsub
    -- the unit vector of place `i` is killed with the second diagonal only
    have hmem : Pi.single i 1 ∈ annihilated (2 ^ (r.width - e' i)) (r.powerDiagonal e') := by
      rw [mem_annihilated_powerDiagonal]
      intro l
      by_cases hl : l = i
      · rw [hkilled hl.ge, zero_mul]
      · rw [Pi.single_eq_of_ne hl, mul_zero]
    have hzero := mem_annihilated_powerDiagonal.mp (hsub hmem) i
    rw [Pi.single_eq_same, mul_one] at hzero
    exact r.two_pow_ne_zero (by omega) hzero

/-- Ascending exponents up to `w` are known from the counts. -/
theorem exponents_unique {e e' : Fin k → ℕ} (hmono : Monotone e) (hmono' : Monotone e')
    (hle : ∀ i, e i ≤ r.width) (hle' : ∀ i, e' i ≤ r.width)
    (hcount : ∀ c : r.Elem, (annihilated c (r.powerDiagonal e)).ncard =
      (annihilated c (r.powerDiagonal e')).ncard) : e = e' := by
  funext i
  induction i using WellFoundedLT.induction with
  | ind i ih =>
      rcases lt_trichotomy (e i) (e' i) with hlt | heq | hgt
      · exact absurd (hcount _) (ncard_annihilated_lt hmono' ih hlt (hle' i)).ne
      · exact heq
      · exact absurd (hcount _)
          (ncard_annihilated_lt hmono (fun l hl => (ih l hl).symm) hgt (hle i)).ne'

theorem IsPowerDiagonal.eq_powerDiagonal {es : List ℕ} {M : Matrix (Fin k) (Fin k) r.Elem}
    (h : IsPowerDiagonal es M) : M = r.powerDiagonal fun i => es.getD i r.width := by
  ext i j
  by_cases hij : i = j
  · subst hij
    rw [h.diagonal, powerDiagonal, Matrix.diagonal_apply_eq]
    by_cases hi : (i : ℕ) < es.length
    · simp [hi]
    · simp [hi, r.two_pow_width_eq_zero]
  · rw [h.off_diagonal i j hij, powerDiagonal, Matrix.diagonal_apply_ne _ hij]

theorem getD_le_width {es : List ℕ} (hlt : ∀ e ∈ es, e < r.width) (i : ℕ) :
    es.getD i r.width ≤ r.width := by
  by_cases hi : i < es.length
  · simpa [hi] using (hlt _ (List.getElem_mem hi)).le
  · simp [hi]

theorem monotone_getD {es : List ℕ} (hasc : es.Pairwise (· ≤ ·)) (hlt : ∀ e ∈ es, e < r.width) :
    Monotone fun i : Fin k => es.getD i r.width := by
  intro i j hij
  dsimp only
  by_cases hj : (j : ℕ) < es.length
  · have hi : (i : ℕ) < es.length := lt_of_le_of_lt hij hj
    rcases hij.lt_or_eq with hij | rfl
    · simpa [hi, hj] using List.pairwise_iff_getElem.mp hasc i j hi hj hij
    · exact le_rfl
  · simpa [hj] using getD_le_width hlt i

theorem ncard_annihilated_d {A : Matrix (Fin k) (Fin k) r.Elem} {f : DiagonalForm}
    (hf : Derived r A f) (c : r.Elem) :
    (annihilated c (r.view k k f.d)).ncard = (annihilated c A).ncard := by
  rw [← hf.product_eq, ncard_annihilated_mul hf.isUnit_t hf.isUnit_s]

/-- The diagonal of a form is known from the counts for the matrix that it was
made from. -/
theorem d_eq_of_ncard {A B : Matrix (Fin k) (Fin k) r.Elem} {f f' : DiagonalForm}
    {es es' : List ℕ} (hf : Finished r A es.length es f) (hf' : Finished r B es'.length es' f')
    (hdiag : IsPowerDiagonal es (r.view k k f.d)) (hdiag' : IsPowerDiagonal es' (r.view k k f'.d))
    (hcount : ∀ c : r.Elem, (annihilated c A).ncard = (annihilated c B).ncard) :
    f.d = f'.d := by
  have hview := hdiag.eq_powerDiagonal
  have hview' := hdiag'.eq_powerDiagonal
  have hexp := exponents_unique (r := r) (k := k) (monotone_getD hf.ascending hf.lt_width)
    (monotone_getD hf'.ascending hf'.lt_width) (fun i => getD_le_width hf.lt_width i)
    (fun i => getD_le_width hf'.lt_width i) (by
      intro c
      rw [← hview, ← hview', ncard_annihilated_d hf.toDerived, hcount,
        ncard_annihilated_d hf'.toDerived])
  refine r.view_inj ⟨hf.square_d.rows_eq, hf.square_d.cols_eq⟩
    ⟨hf'.square_d.rows_eq, hf'.square_d.cols_eq⟩ hf.reduced_d hf'.reduced_d ?_
  rw [hview, hview', hexp]

theorem diagonalize_finished (hk : 0 < k) {a : WordMatrix} (ha : a.Square k)
    (hred : r.ReducedMatrix k k a) :
    ∃ f es, r.diagonalize a = .ok f ∧ Finished r (r.view k k a) es.length es f ∧
      IsPowerDiagonal es (r.view k k f.d) := by
  obtain ⟨f, es, hrun, hf, -, hdiag⟩ :=
    diagonalizeFrom_spec (Nat.zero_add k) (finished_start ha hred)
  refine ⟨f, es, ?_, hf, hdiag⟩
  have hsquare : ¬a.rows ≠ a.cols := by simp [ha.rows_eq, ha.cols_eq]
  rw [diagonalize, if_neg hsquare, ha.rows_eq, identity, if_pos (by exact_mod_cast hk)]
  exact hrun

/-- Invertible factors on both sides do not change the diagonal of a matrix's
form, nor the exponents and the rank that are read from it. -/
theorem diagonalize_canonical (hk : 0 < k) {p a q : WordMatrix} (ha : a.Square k)
    (hred : r.ReducedMatrix k k a) (hp : p.Square k) (hq : q.Square k)
    (hup : IsUnit (r.view k k p)) (huq : IsUnit (r.view k k q)) :
    ∃ pa paq f f', r.matMul p a = .ok pa ∧ r.matMul pa q = .ok paq ∧
      r.diagonalize a = .ok f ∧ r.diagonalize paq = .ok f' ∧
      f'.d = f.d ∧ f'.ranks r = f.ranks r ∧ f'.rank = f.rank := by
  have hpa : (r.multiply p a).Square k := ⟨hp.rows_eq, ha.cols_eq⟩
  have hpaq : (r.multiply (r.multiply p a) q).Square k := ⟨hp.rows_eq, hq.cols_eq⟩
  have hview := r.view_multiply hp.rows_eq hp.cols_eq ha.cols_eq
  have hview' := r.view_multiply hpa.rows_eq hpa.cols_eq hq.cols_eq
  have hredpa : r.ReducedMatrix k k _ := r.reducedMatrix_multiply p a
  have hredpaq : r.ReducedMatrix k k _ := r.reducedMatrix_multiply (r.multiply p a) q
  obtain ⟨f, es, hrun, hf, hdiag⟩ := diagonalize_finished hk ha hred
  obtain ⟨f', es', hrun', hf', hdiag'⟩ := diagonalize_finished hk hpaq hredpaq
  have hd : f'.d = f.d := by
    refine d_eq_of_ncard hf' hf hdiag' hdiag fun c => ?_
    rw [hview', hview, ncard_annihilated_mul hup huq]
  refine ⟨r.multiply p a, r.multiply (r.multiply p a) q, f, f',
    matMul_eq hk hp ha hpa hredpa hview.symm, matMul_eq hk hpa hq hpaq hredpaq hview'.symm,
    hrun, hrun', hd, ?_, ?_⟩
  · rw [DiagonalForm.ranks, hd, DiagonalForm.ranks]
  · rw [DiagonalForm.rank, hd, DiagonalForm.rank]

/-- Modulo 8, factors that mix the rows and the columns of the diagonal matrix
of 2 and 4. -/
theorem diagonalize_canonical_two_four : ∃ (r : WordRing) (pa paq : WordMatrix)
    (f f' : DiagonalForm), r.width = 3 ∧
    r.matMul ⟨2, 2, #[1, 1, 2, 1], rfl⟩ ⟨2, 2, #[2, 0, 0, 4], rfl⟩ = .ok pa ∧
    r.matMul pa ⟨2, 2, #[3, 1, 1, 0], rfl⟩ = .ok paq ∧
    r.diagonalize ⟨2, 2, #[2, 0, 0, 4], rfl⟩ = .ok f ∧
    r.diagonalize paq = .ok f' ∧ f'.d = f.d := by
  let r := ofBits 3 (by decide) (by decide)
  have hup : IsUnit (r.view 2 2 ⟨2, 2, #[1, 1, 2, 1], rfl⟩) := by
    rw [Matrix.isUnit_iff_isUnit_det, Matrix.det_fin_two]
    decide
  have huq : IsUnit (r.view 2 2 ⟨2, 2, #[3, 1, 1, 0], rfl⟩) := by
    rw [Matrix.isUnit_iff_isUnit_det, Matrix.det_fin_two]
    decide
  obtain ⟨pa, paq, f, f', hpa, hpaq, hf, hf', hd, -, -⟩ :=
    diagonalize_canonical (r := r) (k := 2) (by decide) (a := ⟨2, 2, #[2, 0, 0, 4], rfl⟩)
      ⟨rfl, rfl⟩ (by decide) (p := ⟨2, 2, #[1, 1, 2, 1], rfl⟩) ⟨rfl, rfl⟩
      (q := ⟨2, 2, #[3, 1, 1, 0], rfl⟩) ⟨rfl, rfl⟩ hup huq
  exact ⟨r, pa, paq, f, f', rfl, hpa, hpaq, hf, hf', hd⟩

end WordRing

end AffineRelations
