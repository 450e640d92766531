import AffineRelations.Proofs.Diagonal.Elimination

/-!
# The diagonal form

Finishing one corner after another never fails: a pivot that is not zero has an
odd part, and an odd word can be inverted. The exponents found on the way do
not descend, since each pivot divides the whole block that is left. At the end
`D = T * A * S` is diagonal, with powers of two in front and zeros behind.
-/
namespace AffineRelations

/-- The corners before `p` are finished, with the exponents `es`. -/
structure Finished (r : WordRing) {k : ℕ} (A : Matrix (Fin k) (Fin k) r.Elem) (p : ℕ)
    (es : List ℕ) (f : DiagonalForm) : Prop extends Derived r A f where
  length_es : es.length = p
  ascending : es.Pairwise (· ≤ ·)
  lt_width : ∀ e ∈ es, e < r.width
  diagonal : ∀ i : Fin k, (i : ℕ) < p → r.view k k f.d i i = 2 ^ es.getD i 0
  cleared : ∀ i j : Fin k, i ≠ j → (i : ℕ) < p ∨ (j : ℕ) < p → r.view k k f.d i j = 0
  dvd : ∀ e ∈ es, ∀ i j : Fin k, p ≤ i → p ≤ j → 2 ^ e ∣ r.view k k f.d i j

namespace WordRing
variable {r : WordRing} {k : ℕ} {A : Matrix (Fin k) (Fin k) r.Elem} {f : DiagonalForm}

theorem view_movePivot (hf : Derived r A f) (p q₁ q₂ i j : Fin k) :
    r.view k k (movePivot f p (q₁, q₂)).d i j =
      r.view k k f.d (Equiv.swap p q₁ i) (Equiv.swap p q₂ j) := by
  have hsq : (f.d.rowsExchanged p q₁).Square k := Derived.square_ofFn_of hf.square_d _
  change r.view k k ((f.d.rowsExchanged p q₁).colsExchanged p q₂) i j = _
  rw [r.view_colsExchanged hsq, mul_rowExchange_transpose_apply,
    r.view_rowsExchanged hf.square_d, rowExchange_mul_apply]

theorem swap_of_lt {p q x : Fin k} (hq : p ≤ q) (hx : x < p) : Equiv.swap p q x = x :=
  Equiv.swap_apply_of_ne_of_ne hx.ne (hx.trans_le hq).ne

theorem le_swap {p q x : Fin k} (hq : p ≤ q) (hx : p ≤ x) : p ≤ Equiv.swap p q x := by
  rw [Equiv.swap_apply_def]
  split_ifs
  · exact hq
  · exact le_rfl
  · exact hx

/-- With the pivot in its corner the elimination can start. -/
theorem corner_movePivot {p q₁ q₂ : Fin k} {es : List ℕ} (hf : Finished r A p es f)
    (hq : r.pivot? f.d p = some ((q₁ : ℕ), (q₂ : ℕ))) :
    r.value ((movePivot f p (q₁, q₂)).d.entry p p) ≠ 0 ∧
      (∀ e ∈ es, e ≤ r.valuation ((movePivot f p (q₁, q₂)).d.entry p p)) ∧
      Corner p (r.valuation ((movePivot f p (q₁, q₂)).d.entry p p))
        (r.value (r.split ((movePivot f p (q₁, q₂)).d.entry p p)).2)
        (r.view k k (movePivot f p (q₁, q₂)).d) := by
  obtain ⟨⟨⟨hq₁, -⟩, ⟨hq₂, -⟩⟩, hne, hmin⟩ := pivot?_eq_some hq
  rw [hf.square_d.rows_eq] at hmin
  have hpq₁ : p ≤ q₁ := hq₁
  have hpq₂ : p ≤ q₂ := hq₂
  have hmove := view_movePivot hf.toDerived p q₁ q₂
  have hword : (movePivot f p (q₁, q₂)).d.entry p p = f.d.entry q₁ q₂ := by
    have h := hmove p p
    rw [Equiv.swap_apply_left, Equiv.swap_apply_left] at h
    exact r.value_inj ((hf.toDerived.movePivot p q₁ q₂).reduced_d p p.isLt p p.isLt)
      (hf.reduced_d q₁ q₁.isLt q₂ q₂.isLt) h
  have hvalue : r.value (f.d.entry q₁ q₂) ≠ 0 := by
    rwa [ne_eq, r.value_eq_zero_iff (hf.reduced_d q₁ q₁.isLt q₂ q₂.isLt)]
  rw [hword]
  refine ⟨hvalue, ?_, ?_, ?_, ?_⟩
  · intro e he
    exact (r.two_pow_dvd_value_iff (hf.lt_width e he).le).mp (hf.dvd e he q₁ q₂ hpq₁ hpq₂)
  · rw [view_apply, hword]
    exact r.value_eq_two_pow_mul _
  · intro i j hi hj
    rw [hmove, view_apply, r.two_pow_dvd_value_iff (r.valuation_le _)]
    by_cases h₀ : f.d.entry (Equiv.swap p q₁ i) (Equiv.swap p q₂ j) = 0
    · rw [h₀, valuation, valuation, r.split_of_value_eq_zero r.value_zero]
      exact r.valuation_le _
    · exact hmin _ _ ⟨le_swap hpq₁ hi, Fin.isLt _⟩ ⟨le_swap hpq₂ hj, Fin.isLt _⟩ h₀
  · intro i j hij hp
    rw [hmove]
    rcases hp with hp | hp
    · rw [swap_of_lt hpq₁ hp]
      refine hf.cleared i _ ?_ (.inl hp)
      rintro rfl
      by_cases hj : p ≤ j
      · exact absurd hp (le_swap hpq₂ hj).not_gt
      · exact hij (swap_of_lt hpq₂ (not_le.mp hj))
    · rw [swap_of_lt hpq₂ hp]
      refine hf.cleared _ j ?_ (.inr hp)
      rintro rfl
      by_cases hi : p ≤ i
      · exact absurd hp (le_swap hpq₁ hi).not_gt
      · exact hij (swap_of_lt hpq₁ (not_le.mp hi)).symm

theorem mem_after {p k i : ℕ} : i ∈ after p k ↔ p < i ∧ i < k := by
  rw [after, List.mem_range'_1]
  omega

/-- The pivot clears its column below, and the rows up to its own stay. -/
theorem foldl_clearBelow {p : Fin k} {e : ℕ} {u : UInt64} (hf : Derived r A f)
    (hc : Corner p e (r.value u) (r.view k k f.d)) (he : e ≤ r.width)
    (hu : IsUnit (r.value u)) {f' : DiagonalForm}
    (hf' : f' = (after p k).foldl (r.clearBelow p e u) f) :
    Derived r A f' ∧ Corner p e (r.value u) (r.view k k f'.d) ∧
      (∀ i ≤ p, r.view k k f'.d i = r.view k k f.d i) ∧
      ∀ i : Fin k, p < i → r.view k k f'.d i p = 0 := by
  subst hf'
  have hstep (f : DiagonalForm) (hf : Derived r A f)
      (hc : Corner p e (r.value u) (r.view k k f.d)) (i : Fin k) (hi : p < i) :=
    clearBelow_spec hf hc he hu hi
  obtain ⟨hd, hc', hrow, hcol⟩ := Corner.foldl_clears (fun f : DiagonalForm => r.view k k f.d)
    (Derived r A) (r.clearBelow p e u) hstep (after p k) (fun i hi => mem_after.mp hi) f hf hc
  exact ⟨hd, hc', hrow, fun i hi => hcol i (.inl (mem_after.mpr ⟨hi, i.isLt⟩))⟩

/-- The pivot clears its row to the right, and the columns up to its own stay. -/
theorem foldl_clearRight {p : Fin k} {e : ℕ} {u : UInt64} (hf : Derived r A f)
    (hc : Corner p e (r.value u) (r.view k k f.d)) (he : e ≤ r.width)
    (hu : IsUnit (r.value u)) {f' : DiagonalForm}
    (hf' : f' = (after p k).foldl (r.clearRight p e u) f) :
    Derived r A f' ∧ Corner p e (r.value u) (r.view k k f'.d) ∧
      (∀ j ≤ p, ∀ i : Fin k, r.view k k f'.d i j = r.view k k f.d i j) ∧
      ∀ j : Fin k, p < j → r.view k k f'.d p j = 0 := by
  subst hf'
  have hstep (f : DiagonalForm) (hf : Derived r A f)
      (hc : Corner p e (r.value u) (r.view k k f.d).transpose) (j : Fin k) (hj : p < j) :=
    clearRight_spec hf hc.of_transpose he hu hj
  obtain ⟨hd, hc', hrow, hcol⟩ := Corner.foldl_clears
    (fun f : DiagonalForm => (r.view k k f.d).transpose) (Derived r A) (r.clearRight p e u) hstep
    (after p k) (fun j hj => mem_after.mp hj) f hf hc.transpose
  refine ⟨hd, hc'.of_transpose, ?_, ?_⟩
  · intro j hj i
    have h := congrFun (hrow j hj) i
    simpa only [Matrix.transpose_apply] using h
  · intro j hj
    have h := hcol j (.inl (mem_after.mpr ⟨hj, j.isLt⟩))
    simpa only [Matrix.transpose_apply] using h

/-- Dividing the odd part out of the cleared corner finishes it. -/
theorem finished_rowScaled {p : Fin k} {es : List ℕ} {e : ℕ} {u c : UInt64}
    {f' : DiagonalForm} (hf : Finished r A p es f) (hd : Derived r A f')
    (hc : Corner p e (r.value u) (r.view k k f'.d)) (he : e < r.width) (hes : ∀ e' ∈ es, e' ≤ e)
    (hlead : ∀ i : Fin k, i < p → r.view k k f'.d i i = r.view k k f.d i i)
    (hclear : ∀ i : Fin k, p < i → r.view k k f'.d i p = 0 ∧ r.view k k f'.d p i = 0)
    (huc : r.value u * r.value c = 1) :
    Finished r A (p + 1) (es ++ [e])
      { f' with d := r.rowScaled f'.d p c, t := r.rowScaled f'.t p c } where
  toDerived := hd.rowScaled p (IsUnit.of_mul_eq_one _ (mul_comm (r.value u) _ ▸ huc))
  length_es := by rw [List.length_append, hf.length_es, List.length_singleton]
  ascending := by
    refine List.pairwise_append.mpr ⟨hf.ascending, by simp, ?_⟩
    intro e' he' e'' he''
    rw [List.mem_singleton.mp he'']
    exact hes e' he'
  lt_width := by
    intro e' he'
    rcases List.mem_append.mp he' with he' | he'
    · exact hf.lt_width e' he'
    · rwa [List.mem_singleton.mp he']
  diagonal := by
    intro i hi
    rw [r.view_rowScaled hd.square_d, rowCombination_mul_apply]
    by_cases hip : i = p
    · subst hip
      have hget : (es ++ [e]).getD i 0 = e := by simp [List.getD, ← hf.length_es]
      rw [if_pos rfl, hc.pivot_eq, hget]
      linear_combination (2 : r.Elem) ^ e * huc
    · have hlt : i < p := lt_of_le_of_ne (Nat.lt_succ_iff.mp hi) hip
      have hget : (es ++ [e]).getD i 0 = es.getD i 0 := by
        have : (i : ℕ) < es.length := hf.length_es ▸ hlt
        simp [List.getD, List.getElem?_append_left this]
      rw [if_neg hip, hlead i hlt, hget]
      exact hf.diagonal i hlt
  cleared := by
    intro i j hij hp
    -- the finished row and column are zero outside the corner
    have hout : r.view k k f'.d i j = 0 := by
      by_cases hold : i < p ∨ j < p
      · exact hc.cleared i j hij hold
      · rcases not_or.mp hold with ⟨hi, hj⟩
        rcases hp with hp | hp
        · obtain rfl : i = p := le_antisymm (Nat.lt_succ_iff.mp hp) (not_lt.mp hi)
          exact (hclear j (lt_of_le_of_ne (not_lt.mp hj) hij)).2
        · obtain rfl : j = p := le_antisymm (Nat.lt_succ_iff.mp hp) (not_lt.mp hj)
          exact (hclear i (lt_of_le_of_ne (not_lt.mp hi) hij.symm)).1
    rw [r.view_rowScaled hd.square_d, rowCombination_mul_apply]
    split_ifs with hip
    · rw [← hip, hout, mul_zero, zero_mul, sub_zero]
    · exact hout
  dvd := by
    intro e' he' i j hi hj
    have hle : e' ≤ e := by
      rcases List.mem_append.mp he' with he' | he'
      · exact hes e' he'
      · exact (List.mem_singleton.mp he').le
    have hdvd := hc.dvd i j (Nat.le_of_succ_le hi) (Nat.le_of_succ_le hj)
    have hne : i ≠ p := fun h => absurd hi (h ▸ Nat.not_succ_le_self _)
    rw [r.view_rowScaled hd.square_d, rowCombination_mul_apply, if_neg hne]
    exact (pow_dvd_pow 2 hle).trans hdvd

theorem eliminate_spec {p : Fin k} {es : List ℕ} {q : ℕ × ℕ} (hf : Finished r A p es f)
    (hq : r.pivot? f.d p = some q) :
    ∃ f' e, r.eliminate f p q = .ok f' ∧ Finished r A (p + 1) (es ++ [e]) f' := by
  obtain ⟨q₁, q₂⟩ := q
  obtain ⟨⟨⟨hpq₁, hq₁⟩, ⟨hpq₂, hq₂⟩⟩, -⟩ := pivot?_eq_some hq
  rw [hf.square_d.rows_eq] at hq₁ hq₂
  lift q₁ to Fin k using hq₁
  lift q₂ to Fin k using hq₂
  obtain ⟨hne, hes, hc⟩ := corner_movePivot hf hq
  have hd := hf.toDerived.movePivot p q₁ q₂
  generalize hx : (movePivot f p (q₁, q₂)).d.entry p p = x at hne hes hc
  obtain ⟨c, hinv, huc⟩ := r.inverse_of_odd (r.split_spec hne).2.1
  have he : r.valuation x < r.width := r.valuation_lt_iff.mpr hne
  have hu := r.isUnit_oddPart hne
  rw [valuation] at hes hc he
  obtain ⟨hd₁, hc₁, hrow, hcol⟩ := foldl_clearBelow hd hc he.le hu rfl
  obtain ⟨hd₂, hc₂, hcols, hright⟩ := foldl_clearRight hd₁ hc₁ he.le hu rfl
  refine ⟨_, (r.split x).1, ?_, finished_rowScaled hf hd₂ hc₂ he hes ?_ ?_ huc⟩
  · simp only [eliminate, hx, hd.square_d.rows_eq, hd₁.square_d.rows_eq, hinv]
  · intro i hi
    rw [hcols i hi.le i, hrow i hi.le, view_movePivot hf.toDerived, swap_of_lt hpq₁ hi,
      swap_of_lt hpq₂ hi]
  · intro i hi
    exact ⟨(hcols p le_rfl i).trans (hcol i hi), hright i hi⟩

/-- The diagonal of the powers `2^e` for the exponents `es`, continued by zeros. -/
structure IsPowerDiagonal (es : List ℕ) (M : Matrix (Fin k) (Fin k) r.Elem) : Prop where
  off_diagonal : ∀ i j, i ≠ j → M i j = 0
  diagonal : ∀ i, M i i = (es.map fun e => (2 : r.Elem) ^ e).getD i 0

theorem isPowerDiagonal_of_finished {p : ℕ} {es : List ℕ} (hf : Finished r A p es f)
    (hzero : ∀ i j : Fin k, p ≤ i → p ≤ j → r.view k k f.d i j = 0) :
    IsPowerDiagonal es (r.view k k f.d) where
  off_diagonal := by
    intro i j hij
    by_cases h : (i : ℕ) < p ∨ (j : ℕ) < p
    · exact hf.cleared i j hij h
    · rw [not_or, not_lt, not_lt] at h
      exact hzero i j h.1 h.2
  diagonal := by
    intro i
    by_cases h : (i : ℕ) < p
    · rw [hf.diagonal i h]
      have : (i : ℕ) < es.length := hf.length_es.symm ▸ h
      simp [List.getD, this]
    · rw [hzero i i (not_lt.mp h) (not_lt.mp h)]
      have : ¬(i : ℕ) < es.length := hf.length_es.symm ▸ h
      simp [List.getD, this]

/-- Corner after corner is finished, until a block without pivot is left. -/
theorem diagonalizeFrom_spec {p n : ℕ} {es : List ℕ} (hk : p + n = k)
    (hf : Finished r A p es f) :
    ∃ f' es', r.diagonalizeFrom f p n = .ok f' ∧ Finished r A es'.length es' f' ∧
      es'.length ≤ k ∧ IsPowerDiagonal es' (r.view k k f'.d) := by
  induction n generalizing p es f with
  | zero =>
      have hp : es.length = k := hf.length_es.trans hk
      refine ⟨f, es, rfl, hf.length_es.symm ▸ hf, hp.le, isPowerDiagonal_of_finished hf ?_⟩
      intro i j hi
      exact absurd i.isLt (by omega)
  | succ n ih =>
      cases hq : r.pivot? f.d p with
      | none =>
          refine ⟨f, es, by rw [diagonalizeFrom, hq], hf.length_es.symm ▸ hf,
            by rw [hf.length_es]; omega, isPowerDiagonal_of_finished hf ?_⟩
          intro i j hi hj
          have hrows := hf.square_d.rows_eq
          rw [view_apply, pivot?_eq_none hq ⟨hi, by omega⟩ ⟨hj, by omega⟩, value_zero]
      | some q =>
          have hp : p < k := by omega
          obtain ⟨f', e, hstep, hf'⟩ := eliminate_spec (p := ⟨p, hp⟩) hf hq
          obtain ⟨g, es', hrun, hg⟩ := ih (p := p + 1) (by omega) hf'
          exact ⟨g, es', by simp only [diagonalizeFrom, hq, hstep, hrun], hg⟩

theorem finished_start {a : WordMatrix} (ha : a.Square k) (hred : r.ReducedMatrix k k a) :
    Finished r (r.view k k a) 0 [] ⟨a, identityOf k, identityOf k⟩ where
  square_d := ha
  square_t := ⟨rfl, rfl⟩
  square_s := ⟨rfl, rfl⟩
  reduced_d := hred
  product_eq := by rw [view_identityOf, one_mul, mul_one]
  isUnit_t := by
    rw [view_identityOf]
    exact isUnit_one
  isUnit_s := by
    rw [view_identityOf]
    exact isUnit_one
  length_es := rfl
  ascending := .nil
  lt_width := by simp
  diagonal := by simp
  cleared := by simp
  dvd := by simp

theorem matMul_eq {a b c : WordMatrix} (hk : 0 < k) (ha : a.Square k) (hb : b.Square k)
    (hc : c.Square k) (hred : r.ReducedMatrix k k c)
    (h : r.view k k a * r.view k k b = r.view k k c) : r.matMul a b = .ok c := by
  have hprod : r.multiply a b = c :=
    r.view_inj ⟨ha.rows_eq, hb.cols_eq⟩ ⟨hc.rows_eq, hc.cols_eq⟩
      (r.reducedMatrix_multiply a b) hred
      ((r.view_multiply ha.rows_eq ha.cols_eq hb.cols_eq).trans h)
  rw [matMul, if_neg (by rw [ha.cols_eq, hb.rows_eq]; simp),
    if_neg (by rw [ha.rows_eq, hb.cols_eq]; omega), hprod]

/-- Every square matrix of reduced words has a diagonal form. Both factors are
invertible, nothing stands beside the diagonal, and on it stand powers of two
with exponents below `w` that do not descend, followed by zeros. -/
theorem diagonalize_spec (hk : 0 < k) {a : WordMatrix} (ha : a.Square k)
    (hred : r.ReducedMatrix k k a) :
    ∃ f, r.diagonalize a = .ok f ∧ f.t.Square k ∧ f.s.Square k ∧ f.d.Square k ∧
      (∃ ta, r.matMul f.t a = .ok ta ∧ r.matMul ta f.s = .ok f.d) ∧
      IsUnit (r.view k k f.t) ∧ IsUnit (r.view k k f.s) ∧
      (∀ i < k, ∀ j < k, i ≠ j → f.d.entry i j = 0) ∧
      ∃ es : List ℕ, es.length ≤ k ∧ es.Pairwise (· ≤ ·) ∧ (∀ e ∈ es, e < r.width) ∧
        ∀ i < k, (f.d.entry i i).toNat = (es.map (2 ^ ·)).getD i 0 := by
  obtain ⟨f, es, hrun, hf, hlen, hdiag⟩ :=
    diagonalizeFrom_spec (Nat.zero_add k) (finished_start ha hred)
  refine ⟨f, ?_, hf.square_t, hf.square_s, hf.square_d, ?_, hf.isUnit_t, hf.isUnit_s, ?_, es,
    hlen, hf.ascending, hf.lt_width, ?_⟩
  · have hsquare : ¬a.rows ≠ a.cols := by simp [ha.rows_eq, ha.cols_eq]
    rw [diagonalize, if_neg hsquare, ha.rows_eq, identity, if_pos (by exact_mod_cast hk)]
    exact hrun
  · have hta : (r.multiply f.t a).Square k := ⟨hf.square_t.rows_eq, ha.cols_eq⟩
    have hview := r.view_multiply hf.square_t.rows_eq hf.square_t.cols_eq ha.cols_eq
    refine ⟨r.multiply f.t a, matMul_eq hk hf.square_t ha hta
      (r.reducedMatrix_multiply f.t a) hview.symm, ?_⟩
    exact matMul_eq hk hta hf.square_s hf.square_d hf.reduced_d (by rw [hview, hf.product_eq])
  · intro i hi j hj hij
    rw [← r.value_eq_zero_iff (hf.reduced_d i hi j hj)]
    exact hdiag.off_diagonal ⟨i, hi⟩ ⟨j, hj⟩ (by simpa using hij)
  · intro i hi
    have hvalue : r.value (f.d.entry i i) = _ := hdiag.diagonal ⟨i, hi⟩
    have hentry := hf.reduced_d i hi i hi
    by_cases h : i < es.length
    · have hword : f.d.entry i i = r.pow2 (es[i] : ℕ) := by
        apply r.value_inj hentry (r.reduced_pow2 _)
        rw [hvalue, value_pow2]
        simp [List.getD, h]
      rw [hword, r.toNat_pow2 (hf.lt_width _ (List.getElem_mem h))]
      simp [List.getD, h]
    · have hword : f.d.entry i i = 0 := by
        rw [← r.value_eq_zero_iff hentry, hvalue]
        simp [List.getD, h]
      rw [hword]
      simp [List.getD, h]

/-- A matrix modulo 8 without a unit among its entries. -/
theorem diagonalize_even_matrix : ∃ (r : WordRing) (f : DiagonalForm), r.width = 3 ∧
    r.diagonalize ⟨2, 2, #[4, 2, 6, 2], rfl⟩ = .ok f ∧
    (∃ ta, r.matMul f.t ⟨2, 2, #[4, 2, 6, 2], rfl⟩ = .ok ta ∧ r.matMul ta f.s = .ok f.d) ∧
    IsUnit (r.view 2 2 f.t) ∧ IsUnit (r.view 2 2 f.s) ∧
    ∃ es : List ℕ, ∀ i < 2, (f.d.entry i i).toNat = (es.map (2 ^ ·)).getD i 0 := by
  let r := ofBits 3 (by decide) (by decide)
  obtain ⟨f, hrun, -, -, -, hprod, ht, hs, -, es, -, -, -, hdiag⟩ :=
    diagonalize_spec (r := r) (k := 2) (by decide) (a := ⟨2, 2, #[4, 2, 6, 2], rfl⟩) ⟨rfl, rfl⟩
      (by decide)
  exact ⟨r, f, rfl, hrun, hprod, ht, hs, es, hdiag⟩

end WordRing

end AffineRelations
