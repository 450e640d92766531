import AffineRelations.Proofs.Diagonal.Elementary

/-!
# One corner of the elimination

`Derived` says that a form was made from a matrix `A` by invertible operations:
`T * A * S = D`, with `T` and `S` invertible. `Corner` describes the matrix
while the corner `(p, p)` is being finished. The rows and columns before `p`
have been cleared, the pivot is `2^e * u`, and all entries of the block from
`p` on are multiples of `2^e`, so each of them can be cleared without division.
Clearing a column and clearing a row are one argument, applied to the matrix
and to its transpose.
-/
namespace AffineRelations

section Matrix
variable {R : Type*} [CommRing R] {k : ℕ}

/-- The matrix while the corner `(p, p)` is being finished. -/
structure Corner (p : Fin k) (e : ℕ) (u : R) (M : Matrix (Fin k) (Fin k) R) : Prop where
  pivot_eq : M p p = 2 ^ e * u
  dvd : ∀ i j, p ≤ i → p ≤ j → 2 ^ e ∣ M i j
  cleared : ∀ i j, i ≠ j → i < p ∨ j < p → M i j = 0

theorem Corner.transpose {p : Fin k} {e : ℕ} {u : R} {M : Matrix (Fin k) (Fin k) R}
    (h : Corner p e u M) : Corner p e u M.transpose where
  pivot_eq := h.pivot_eq
  dvd := fun i j hi hj => h.dvd j i hj hi
  cleared := fun i j hij hp => h.cleared j i hij.symm hp.symm

theorem Corner.of_transpose {p : Fin k} {e : ℕ} {u : R} {M : Matrix (Fin k) (Fin k) R}
    (h : Corner p e u M.transpose) : Corner p e u M := by
  have h' := h.transpose
  rwa [Matrix.transpose_transpose] at h'

/-- `M'` is `M` after a multiple of row `p` has cleared the entry `(i, p)`. -/
def Clears (p i : Fin k) (M M' : Matrix (Fin k) (Fin k) R) : Prop :=
  ∃ a c : R, a * M i p = c * M p p ∧ M' = rowCombination i p a c * M

theorem clears_self {p i : Fin k} {M : Matrix (Fin k) (Fin k) R} (h : M i p = 0) :
    Clears p i M M := by
  refine ⟨1, 0, by rw [h, mul_zero, zero_mul], ?_⟩
  ext x y
  rw [rowCombination_mul_apply]
  split_ifs with hx
  · rw [hx, one_mul, zero_mul, sub_zero]
  · rfl

theorem Clears.row_eq {p i x : Fin k} {M M' : Matrix (Fin k) (Fin k) R} (h : Clears p i M M')
    (hx : x ≠ i) : M' x = M x := by
  obtain ⟨a, c, -, rfl⟩ := h
  funext y
  rw [rowCombination_mul_apply, if_neg hx]

theorem Clears.entry_eq_zero {p i : Fin k} {M M' : Matrix (Fin k) (Fin k) R}
    (h : Clears p i M M') : M' i p = 0 := by
  obtain ⟨a, c, hac, rfl⟩ := h
  rw [rowCombination_mul_apply, if_pos rfl, hac, sub_self]

theorem Corner.clears {p i : Fin k} {e : ℕ} {u : R} {M M' : Matrix (Fin k) (Fin k) R}
    (h : Corner p e u M) (hi : p < i) (hc : Clears p i M M') : Corner p e u M' where
  pivot_eq := by rw [hc.row_eq hi.ne, h.pivot_eq]
  dvd := by
    intro x y hx hy
    by_cases hxi : x = i
    · obtain ⟨a, c, -, rfl⟩ := hc
      rw [rowCombination_mul_apply, if_pos hxi]
      exact dvd_sub (Dvd.dvd.mul_left (h.dvd i y hi.le hy) a)
        (Dvd.dvd.mul_left (h.dvd p y le_rfl hy) c)
    · rw [hc.row_eq hxi]
      exact h.dvd x y hx hy
  cleared := by
    intro x y hxy hp
    by_cases hxi : x = i
    · subst hxi
      have hy : y < p := hp.resolve_left hi.not_gt
      obtain ⟨a, c, -, rfl⟩ := hc
      rw [rowCombination_mul_apply, if_pos rfl, h.cleared x y hxy (.inr hy),
        h.cleared p y hy.ne' (.inr hy), mul_zero, mul_zero, sub_zero]
    · rw [hc.row_eq hxi]
      exact h.cleared x y hxy hp

/-- Clearing the entries `(i, p)` one after another, for all `i` of a list. The
states may be of any kind that shows a matrix and keeps an invariant. -/
theorem Corner.foldl_clears {α : Type*} (view : α → Matrix (Fin k) (Fin k) R) (inv : α → Prop)
    (step : α → ℕ → α) {p : Fin k} {e : ℕ} {u : R}
    (hstep : ∀ f, inv f → Corner p e u (view f) → ∀ i : Fin k, p < i →
      inv (step f i) ∧ Clears p i (view f) (view (step f i)))
    (is : List ℕ) (his : ∀ i ∈ is, (p : ℕ) < i ∧ i < k) (f : α) (hf : inv f)
    (hc : Corner p e u (view f)) :
    inv (is.foldl step f) ∧ Corner p e u (view (is.foldl step f)) ∧
      (∀ x ≤ p, view (is.foldl step f) x = view f x) ∧
      ∀ i : Fin k, ((i : ℕ) ∈ is ∨ view f i p = 0 ∧ i ≠ p) → view (is.foldl step f) i p = 0 := by
  induction is generalizing f with
  | nil => exact ⟨hf, hc, fun _ _ => rfl, fun i hi => by simpa using hi.elim (by simp) And.left⟩
  | cons n is ih =>
      obtain ⟨hpn, hnk⟩ := his n (by simp)
      have hlt : p < (⟨n, hnk⟩ : Fin k) := hpn
      obtain ⟨hinv, hclear⟩ := hstep f hf hc ⟨n, hnk⟩ hlt
      obtain ⟨h₁, h₂, h₃, h₄⟩ := ih (fun i hi => his i (by simp [hi])) (step f n) hinv
        (hc.clears hlt hclear)
      refine ⟨h₁, h₂, ?_, ?_⟩
      · intro x hx
        exact (h₃ x hx).trans (hclear.row_eq (hx.trans_lt hlt).ne)
      · intro i hi
        apply h₄ i
        by_cases hin : i = ⟨n, hnk⟩
        · exact .inr ⟨hin ▸ hclear.entry_eq_zero, (hin ▸ hlt).ne'⟩
        · have hne : (i : ℕ) ≠ n := fun h => hin (Fin.ext h)
          refine hi.imp ?_ ?_
          · intro hmem
            simpa [hne] using hmem
          · rintro ⟨h₀, hp⟩
            exact ⟨by rw [hclear.row_eq hin, h₀], hp⟩

end Matrix

/-- The form was made from `A` by invertible operations on rows and columns. -/
structure Derived (r : WordRing) {k : ℕ} (A : Matrix (Fin k) (Fin k) r.Elem)
    (f : DiagonalForm) : Prop where
  square_d : f.d.Square k
  square_t : f.t.Square k
  square_s : f.s.Square k
  reduced_d : r.ReducedMatrix k k f.d
  product_eq : r.view k k f.t * A * r.view k k f.s = r.view k k f.d
  isUnit_t : IsUnit (r.view k k f.t)
  isUnit_s : IsUnit (r.view k k f.s)

namespace Derived
variable {r : WordRing} {k : ℕ} {A : Matrix (Fin k) (Fin k) r.Elem} {f : DiagonalForm}

theorem square_ofFn_of {m : WordMatrix} (hm : m.Square k) (g : ℕ → ℕ → UInt64) :
    (WordMatrix.ofFn m.rows m.cols g).Square k := ⟨hm.rows_eq, hm.cols_eq⟩

theorem reducedMatrix_ofFn {m : WordMatrix} (hm : m.Square k) {g : ℕ → ℕ → UInt64}
    (hg : ∀ x < k, ∀ y < k, r.Reduced (g x y)) :
    r.ReducedMatrix k k (.ofFn m.rows m.cols g) := by
  intro x hx y hy
  obtain ⟨rfl, hcols⟩ := hm
  rw [hcols, WordMatrix.entry_ofFn g hx hy]
  exact hg x hx y hy

/-- Some entries are computed anew and reduced, and the others stay. -/
theorem reducedMatrix_ite {m : WordMatrix} (hm : m.Square k) (hred : r.ReducedMatrix k k m)
    (P : ℕ → ℕ → Prop) [∀ x y, Decidable (P x y)] (g : ℕ → ℕ → UInt64) :
    r.ReducedMatrix k k (.ofFn m.rows m.cols fun x y =>
      if P x y then r.residue (g x y) else m.entry x y) := by
  apply reducedMatrix_ofFn hm
  intro x hx y hy
  split_ifs
  · exact r.reduced_residue _
  · exact hred x hx y hy

theorem rows (h : Derived r A f) {E : Matrix (Fin k) (Fin k) r.Elem} (hE : IsUnit E)
    {d t : WordMatrix} (hd : d.Square k) (ht : t.Square k) (hred : r.ReducedMatrix k k d)
    (hvd : r.view k k d = E * r.view k k f.d) (hvt : r.view k k t = E * r.view k k f.t) :
    Derived r A { f with d := d, t := t } where
  square_d := hd
  square_t := ht
  square_s := h.square_s
  reduced_d := hred
  product_eq := by rw [hvd, hvt, ← h.product_eq, mul_assoc, mul_assoc, mul_assoc]
  isUnit_t := by
    rw [hvt]
    exact hE.mul h.isUnit_t
  isUnit_s := h.isUnit_s

theorem cols (h : Derived r A f) {E : Matrix (Fin k) (Fin k) r.Elem} (hE : IsUnit E)
    {d s : WordMatrix} (hd : d.Square k) (hs : s.Square k) (hred : r.ReducedMatrix k k d)
    (hvd : r.view k k d = r.view k k f.d * E) (hvs : r.view k k s = r.view k k f.s * E) :
    Derived r A { f with d := d, s := s } where
  square_d := hd
  square_t := h.square_t
  square_s := hs
  reduced_d := hred
  product_eq := by rw [hvd, hvs, ← h.product_eq, ← mul_assoc]
  isUnit_t := h.isUnit_t
  isUnit_s := by
    rw [hvs]
    exact h.isUnit_s.mul hE

theorem rowCombined (h : Derived r A f) {i p : Fin k} (hne : i ≠ p) {a : UInt64} (c : UInt64)
    (ha : IsUnit (r.value a)) :
    Derived r A { f with d := r.rowCombined f.d i p a c, t := r.rowCombined f.t i p a c } := by
  exact h.rows (isUnit_rowCombination ha (.inl hne)) (square_ofFn_of h.square_d _)
    (square_ofFn_of h.square_t _) (reducedMatrix_ite h.square_d h.reduced_d (fun x _ => x = i) _)
    (r.view_rowCombined h.square_d i p a c) (r.view_rowCombined h.square_t i p a c)

theorem colCombined (h : Derived r A f) {j p : Fin k} (hne : j ≠ p) {a : UInt64} (c : UInt64)
    (ha : IsUnit (r.value a)) :
    Derived r A { f with d := r.colCombined f.d j p a c, s := r.colCombined f.s j p a c } := by
  exact h.cols (isUnit_transpose (isUnit_rowCombination ha (.inl hne)))
    (square_ofFn_of h.square_d _) (square_ofFn_of h.square_s _)
    (reducedMatrix_ite h.square_d h.reduced_d (fun _ y => y = j) _)
    (r.view_colCombined h.square_d j p a c) (r.view_colCombined h.square_s j p a c)

theorem rowScaled (h : Derived r A f) (i : Fin k) {c : UInt64} (hc : IsUnit (r.value c)) :
    Derived r A { f with d := r.rowScaled f.d i c, t := r.rowScaled f.t i c } := by
  exact h.rows (isUnit_rowCombination hc (.inr rfl)) (square_ofFn_of h.square_d _)
    (square_ofFn_of h.square_t _) (reducedMatrix_ite h.square_d h.reduced_d (fun x _ => x = i) _)
    (r.view_rowScaled h.square_d i c) (r.view_rowScaled h.square_t i c)

theorem movePivot (h : Derived r A f) (p q₁ q₂ : Fin k) :
    Derived r A (WordRing.movePivot f p (q₁, q₂)) := by
  have hrow : Derived r A
      { f with d := f.d.rowsExchanged p q₁, t := f.t.rowsExchanged p q₁ } := by
    refine h.rows (isUnit_rowExchange p q₁) (square_ofFn_of h.square_d _)
      (square_ofFn_of h.square_t _) (reducedMatrix_ofFn h.square_d ?_)
      (r.view_rowsExchanged h.square_d p q₁) (r.view_rowsExchanged h.square_t p q₁)
    intro x hx y hy
    have hx' : (Equiv.swap p q₁ ⟨x, hx⟩ : Fin k).val < k := Fin.isLt _
    rw [WordRing.val_swap] at hx'
    exact h.reduced_d _ hx' y hy
  refine hrow.cols (isUnit_transpose (isUnit_rowExchange p q₂)) (square_ofFn_of hrow.square_d _)
    (square_ofFn_of h.square_s _) (reducedMatrix_ofFn hrow.square_d ?_)
    (r.view_colsExchanged hrow.square_d p q₂) (r.view_colsExchanged h.square_s p q₂)
  intro x hx y hy
  have hy' : (Equiv.swap p q₂ ⟨y, hy⟩ : Fin k).val < k := Fin.isLt _
  rw [WordRing.val_swap] at hy'
  exact hrow.reduced_d x hx _ hy'

end Derived

namespace WordRing
variable {r : WordRing} {k : ℕ} {A : Matrix (Fin k) (Fin k) r.Elem} {f : DiagonalForm}

/-- The multiplier takes `2^e` to any multiple of it. -/
theorem value_multiplier_mul {e : ℕ} (he : e ≤ r.width) {x : UInt64}
    (hx : 2 ^ e ∣ r.value x) : r.value (r.multiplier e x) * 2 ^ e = r.value x := by
  have hle : e ≤ (r.split x).1 := (r.two_pow_dvd_value_iff he).mp hx
  have hpow : (2 : r.Elem) ^ (r.split x).1 = 2 ^ ((r.split x).1 - e) * 2 ^ e := by
    rw [← pow_add, Nat.sub_add_cancel hle]
  rw [multiplier, value_mul, r.value_pow2_sub hle, r.value_eq_two_pow_mul x, hpow]
  ring

theorem clearBelow_spec (h : Derived r A f) {p : Fin k} {e : ℕ} {u : UInt64}
    (hc : Corner p e (r.value u) (r.view k k f.d)) (he : e ≤ r.width)
    (hu : IsUnit (r.value u)) {i : Fin k} (hi : p < i) :
    Derived r A (r.clearBelow p e u f i) ∧
      Clears p i (r.view k k f.d) (r.view k k (r.clearBelow p e u f i).d) := by
  rw [clearBelow]
  split_ifs with hx
  · exact ⟨h, clears_self (by rw [view_apply, hx, value_zero])⟩
  · refine ⟨h.rowCombined hi.ne' _ hu, r.value u, _, ?_, r.view_rowCombined h.square_d i p u _⟩
    have hmul := value_multiplier_mul he (hc.dvd i p hi.le le_rfl)
    rw [hc.pivot_eq, view_apply, ← hmul]
    ring

theorem clearRight_spec (h : Derived r A f) {p : Fin k} {e : ℕ} {u : UInt64}
    (hc : Corner p e (r.value u) (r.view k k f.d)) (he : e ≤ r.width)
    (hu : IsUnit (r.value u)) {j : Fin k} (hj : p < j) :
    Derived r A (r.clearRight p e u f j) ∧
      Clears p j (r.view k k f.d).transpose
        (r.view k k (r.clearRight p e u f j).d).transpose := by
  rw [clearRight]
  split_ifs with hx
  · exact ⟨h, clears_self (by rw [Matrix.transpose_apply, view_apply, hx, value_zero])⟩
  · refine ⟨h.colCombined hj.ne' _ hu, r.value u, r.value (r.multiplier e (f.d.entry p j)), ?_, ?_⟩
    · have hmul := value_multiplier_mul he (hc.dvd p j le_rfl hj.le)
      rw [Matrix.transpose_apply, Matrix.transpose_apply, hc.pivot_eq, view_apply, ← hmul]
      ring
    · rw [r.view_colCombined h.square_d j p u, Matrix.transpose_mul, Matrix.transpose_transpose]

/-- What the entry of least valuation among the given positions is. -/
def Best (r : WordRing) (m : WordMatrix) (ps : List (ℕ × ℕ)) : Option (ℕ × ℕ × ℕ) → Prop
  | none => ∀ p ∈ ps, m.entry p.1 p.2 = 0
  | some (v, q) => q ∈ ps ∧ m.entry q.1 q.2 ≠ 0 ∧ v = r.valuation (m.entry q.1 q.2) ∧
      ∀ p ∈ ps, m.entry p.1 p.2 ≠ 0 → v ≤ r.valuation (m.entry p.1 p.2)

theorem best_betterPivot {m : WordMatrix} {ps : List (ℕ × ℕ)} {best : Option (ℕ × ℕ × ℕ)}
    (h : Best r m ps best) (p : ℕ × ℕ) : Best r m (ps ++ [p]) (r.betterPivot m best p) := by
  have happend {P : ℕ × ℕ → Prop} (hps : ∀ q ∈ ps, P q) (hp : P p) : ∀ q ∈ ps ++ [p], P q :=
    List.forall_mem_append.mpr ⟨hps, by simpa using hp⟩
  by_cases hx : m.entry p.1 p.2 = 0
  · rw [betterPivot, if_pos hx]
    cases best with
    | none => exact happend h hx
    | some b =>
        obtain ⟨hmem, hne, hv, hmin⟩ := h
        exact ⟨List.mem_append_left _ hmem, hne, hv, happend hmin fun hne => (hne hx).elim⟩
  · rw [betterPivot, if_neg hx]
    cases best with
    | none =>
        refine ⟨by simp, hx, rfl, happend ?_ fun _ => le_rfl⟩
        exact fun q hq hq₀ => (hq₀ (h q hq)).elim
    | some b =>
        obtain ⟨v, c⟩ := b
        obtain ⟨hmem, hne, hv, hmin⟩ := h
        dsimp only
        split_ifs with hlt
        · refine ⟨by simp, hx, rfl, happend ?_ fun _ => le_rfl⟩
          exact fun q hq hq₀ => hlt.le.trans (hmin q hq hq₀)
        · exact ⟨List.mem_append_left _ hmem, hne, hv, happend hmin fun _ => not_lt.mp hlt⟩

theorem best_foldl {m : WordMatrix} (ps qs : List (ℕ × ℕ)) {best : Option (ℕ × ℕ × ℕ)}
    (h : Best r m ps best) : Best r m (ps ++ qs) (qs.foldl (r.betterPivot m) best) := by
  induction qs generalizing ps best with
  | nil => simpa using h
  | cons q qs ih =>
      have hq := ih (ps ++ [q]) (best_betterPivot h q)
      rwa [List.append_assoc] at hq

theorem mem_block {lo k i j : ℕ} :
    (i, j) ∈ block lo k ↔ (lo ≤ i ∧ i < k) ∧ (lo ≤ j ∧ j < k) := by
  simp only [block, List.mem_flatMap, List.mem_map, List.mem_range'_1, Prod.mk.injEq]
  constructor
  · rintro ⟨x, hx, y, hy, rfl, rfl⟩
    omega
  · intro h
    exact ⟨i, by omega, j, by omega, rfl, rfl⟩

theorem pivot?_eq_none {m : WordMatrix} {lo : ℕ} (h : r.pivot? m lo = none) {i j : ℕ}
    (hi : lo ≤ i ∧ i < m.rows) (hj : lo ≤ j ∧ j < m.rows) : m.entry i j = 0 := by
  have hnone : Best r m [] none := by simp [Best]
  have hbest := best_foldl [] (block lo m.rows) hnone
  rw [pivot?, Option.map_eq_none_iff] at h
  rw [h] at hbest
  exact hbest (i, j) (mem_block.mpr ⟨hi, hj⟩)

theorem pivot?_eq_some {m : WordMatrix} {lo : ℕ} {q : ℕ × ℕ} (h : r.pivot? m lo = some q) :
    ((lo ≤ q.1 ∧ q.1 < m.rows) ∧ (lo ≤ q.2 ∧ q.2 < m.rows)) ∧ m.entry q.1 q.2 ≠ 0 ∧
      ∀ i j, lo ≤ i ∧ i < m.rows → lo ≤ j ∧ j < m.rows → m.entry i j ≠ 0 →
        r.valuation (m.entry q.1 q.2) ≤ r.valuation (m.entry i j) := by
  have hnone : Best r m [] none := by simp [Best]
  have hbest := best_foldl [] (block lo m.rows) hnone
  obtain ⟨⟨v, q'⟩, hfold, rfl⟩ := Option.map_eq_some_iff.mp h
  rw [hfold] at hbest
  obtain ⟨hmem, hne, rfl, hmin⟩ := hbest
  refine ⟨mem_block.mp hmem, hne, ?_⟩
  intro i j hi hj
  exact hmin (i, j) (mem_block.mpr ⟨hi, hj⟩)

end WordRing

end AffineRelations
