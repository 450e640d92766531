import AffineRelations.Proofs.Word.Coords
import AffineRelations.Word.Product

/-!
# What a matrix of words denotes

The view of a matrix is the matrix of the elements that its entries denote. A
matrix of one shape with reduced entries is determined by its view.

The products are loops that add multiples of rows in place. Each turn adds to
what the words denote, whether it passes over a row or not, and leaves the
words reduced. So at the end of the loops the words denote the products of the
views.
-/
namespace AffineRelations

namespace WordMatrix

/-- Two matrices of one shape are equal if their entries are. -/
theorem ext_entry {m m' : WordMatrix} (hrows : m.rows = m'.rows) (hcols : m.cols = m'.cols)
    (h : ∀ i < m.rows, ∀ j < m.cols, m.entry i j = m'.entry i j) : m = m' := by
  obtain ⟨rows, cols, xs, hx⟩ := m
  obtain ⟨rows', cols', ys, hy⟩ := m'
  obtain rfl : rows = rows' := hrows
  obtain rfl : cols = cols' := hcols
  have hxy : xs = ys := by
    apply Array.ext (hx.trans hy.symm)
    intro t ht₁ ht₂
    have ht : t < rows * cols := hx ▸ ht₁
    have hc : 0 < cols := Nat.pos_of_mul_pos_left (Nat.zero_lt_of_lt ht)
    have hsplit : t / cols * cols + t % cols = t := Nat.div_add_mod' t cols
    have he := h (t / cols) (Nat.div_lt_of_lt_mul (Nat.mul_comm rows cols ▸ ht)) (t % cols)
      (Nat.mod_lt _ hc)
    simpa [entry, hsplit, ht₁, ht₂] using he
  subst hxy
  rfl

/-- A square matrix of size `k`. -/
structure Square (k : ℕ) (m : WordMatrix) : Prop where
  rows_eq : m.rows = k
  cols_eq : m.cols = k

theorem square_ofFn (k : ℕ) (f : ℕ → ℕ → UInt64) : (ofFn k k f).Square k := ⟨rfl, rfl⟩

end WordMatrix

namespace WordRing
variable (r : WordRing) {k l n : ℕ}

/-- The elements that the entries of a matrix denote. -/
def view (k l : ℕ) (m : WordMatrix) : Matrix (Fin k) (Fin l) r.Elem :=
  Matrix.of fun i j => r.value (m.entry i j)

@[simp] theorem view_apply (m : WordMatrix) (i : Fin k) (j : Fin l) :
    r.view k l m i j = r.value (m.entry i j) := rfl

/-- A matrix all of whose entries are reduced. -/
def ReducedMatrix (k l : ℕ) (m : WordMatrix) : Prop :=
  ∀ i < k, ∀ j < l, r.Reduced (m.entry i j)

instance (m : WordMatrix) : Decidable (r.ReducedMatrix k l m) :=
  Nat.decidableBallLT k fun i _ => ∀ j < l, r.Reduced (m.entry i j)

theorem view_ofFn (f : ℕ → ℕ → UInt64) :
    r.view k l (.ofFn k l f) = Matrix.of fun (i : Fin k) (j : Fin l) => r.value (f i j) := by
  ext i j
  rw [view_apply, WordMatrix.entry_ofFn f i.isLt j.isLt, Matrix.of_apply]

theorem view_inj {m m' : WordMatrix} (hm : m.rows = k ∧ m.cols = l)
    (hm' : m'.rows = k ∧ m'.cols = l) (hr : r.ReducedMatrix k l m)
    (hr' : r.ReducedMatrix k l m') (h : r.view k l m = r.view k l m') : m = m' := by
  apply WordMatrix.ext_entry (hm.1.trans hm'.1.symm) (hm.2.trans hm'.2.symm)
  intro i hi j hj
  rw [hm.1] at hi
  rw [hm.2] at hj
  exact r.value_inj (hr i hi j hj) (hr' i hi j hj) (congrFun (congrFun h ⟨i, hi⟩) ⟨j, hj⟩)

theorem coords_rowVec {m : WordMatrix} (hm : m.cols = l) (i : Fin k) :
    r.coords l (m.rowVec i) = r.view k l m i := by
  funext j
  have hj : (j : ℕ) < m.cols := hm ▸ j.isLt
  simp [coords, WordMatrix.rowVec, hj]

theorem getD_modify {out : Array UInt64} {t : ℕ} (ht : t < out.size) (s : ℕ)
    (f : UInt64 → UInt64) :
    (out.modify s f).getD t 0 = if s = t then f (out.getD t 0) else out.getD t 0 := by
  simp only [Array.getD_eq_getD_getElem?, Array.getElem?_modify, Array.getElem?_eq_getElem ht]
  split_ifs <;> simp

/-- A row that is added changes the words from its start on, as many as it has,
and no others. -/
theorem getD_addRow (m : WordMatrix) (p : ℕ) (c : UInt64) (start : ℕ) {out : Array UInt64}
    {t : ℕ} (ht : t < out.size) :
    (r.addRow m p c start out).getD t 0 =
      if start ≤ t ∧ t < start + m.cols then r.residue (out.getD t 0 + c * m.entry p (t - start))
      else out.getD t 0 := by
  rw [addRow]
  -- the induction is on the columns that the loop has passed
  generalize m.cols = q
  induction q with
  | zero =>
      have hempty : ¬(start ≤ t ∧ t < start + 0) := by omega
      rw [List.range_zero, List.foldl_nil, if_neg hempty]
  | succ q ih =>
      rw [List.range_succ, List.foldl_append, List.foldl_cons, List.foldl_nil,
        getD_modify (by rwa [size_foldl_of_step fun _ _ => Array.size_modify]), ih]
      by_cases hlast : start + q = t
      · have hin : start ≤ t ∧ t < start + (q + 1) := by omega
        have hout : ¬(start ≤ t ∧ t < start + q) := by omega
        have hcolumn : t - start = q := by omega
        rw [if_pos hlast, if_neg hout, if_pos hin, hcolumn]
      · have hiff : (start ≤ t ∧ t < start + (q + 1)) ↔ start ≤ t ∧ t < start + q := by omega
        rw [if_neg hlast]
        simp only [hiff]

/-- All words of an array are reduced. -/
def ReducedWords (out : Array UInt64) : Prop := ∀ t, r.Reduced (out.getD t 0)

theorem reducedWords_replicate (n : ℕ) : r.ReducedWords (Array.replicate n 0) := by
  intro t
  have hzero : (Array.replicate n (0 : UInt64)).getD t 0 = 0 := by
    rw [Array.getD]
    split_ifs <;> simp
  rw [hzero]
  exact r.reduced_zero

theorem reducedWords_addRow (m : WordMatrix) (p : ℕ) (c : UInt64) (start : ℕ) {out : Array UInt64}
    (h : r.ReducedWords out) : r.ReducedWords (r.addRow m p c start out) := by
  intro t
  by_cases ht : t < out.size
  · rw [r.getD_addRow m p c start ht]
    by_cases hin : start ≤ t ∧ t < start + m.cols
    · rw [if_pos hin]
      exact r.reduced_residue _
    · rw [if_neg hin]
      exact h t
  · rw [Array.getD, dif_neg (by rwa [size_addRow])]
    exact r.reduced_zero

theorem reducedWords_foldl {f : Array UInt64 → ℕ → Array UInt64}
    (hf : ∀ out i, r.ReducedWords out → r.ReducedWords (f out i)) (is : List ℕ)
    {out : Array UInt64} (h : r.ReducedWords out) : r.ReducedWords (is.foldl f out) :=
  List.foldlRecOn is f h fun out hout i _ => hf out i hout

/-- A turn of the loop adds the row's multiple, also if it passes over the row:
the coordinate then denotes zero. -/
theorem value_addCoordinate {m : WordMatrix} (v : WordVec) {out : Array UInt64} (i : ℕ) {j : ℕ}
    (hj : j < m.cols) (hsize : j < out.size) :
    r.value ((r.addCoordinate m v out i).getD j 0) =
      r.value (out.getD j 0) + r.value (v.getD i 0) * r.value (m.entry i j) := by
  by_cases hskip : r.residue (v.getD i 0) = 0
  · have hzero : r.value (v.getD i 0) = 0 := by
      rw [← value_residue, hskip, value_zero]
    rw [addCoordinate, if_pos hskip, hzero, zero_mul, add_zero]
  · have hin : 0 ≤ j ∧ j < 0 + m.cols := by omega
    rw [addCoordinate, if_neg hskip, r.getD_addRow m i _ 0 hsize, if_pos hin, value_residue,
      value_word_add, value_word_mul, value_residue, Nat.sub_zero]

theorem reducedWords_addCoordinate (m : WordMatrix) (v : WordVec) (out : Array UInt64) (i : ℕ)
    (h : r.ReducedWords out) : r.ReducedWords (r.addCoordinate m v out i) := by
  rw [addCoordinate]
  split_ifs
  · exact h
  · exact r.reducedWords_addRow m i _ 0 h

/-- After `q` turns the words denote the sums over the first `q` rows. -/
theorem value_foldl_addCoordinate {m : WordMatrix} (v : WordVec) {j : ℕ} (hj : j < m.cols)
    (q : ℕ) :
    r.value (((List.range q).foldl (r.addCoordinate m v) (Array.replicate m.cols 0)).getD j 0) =
      ∑ i ∈ Finset.range q, r.value (v.getD i 0) * r.value (m.entry i j) := by
  induction q with
  | zero => simp [hj]
  | succ q ih =>
      have hsize : j < ((List.range q).foldl (r.addCoordinate m v)
          (Array.replicate m.cols 0)).size := by
        rwa [size_foldl_of_step (r.size_addCoordinate m v), Array.size_replicate]
      rw [List.range_succ, List.foldl_append, List.foldl_cons, List.foldl_nil,
        r.value_addCoordinate v q hj hsize, ih, Finset.sum_range_succ]

theorem coords_apply {m : WordMatrix} (hrows : m.rows = k) (hcols : m.cols = l) {v : WordVec} :
    r.coords l (r.apply m v) = Matrix.vecMul (r.coords k v) (r.view k l m) := by
  subst hrows hcols
  funext j
  have hword : (r.apply m v).getD j 0 = ((List.range m.rows).foldl (r.addCoordinate m v)
      (Array.replicate m.cols 0)).getD j 0 := by
    rw [apply, List.getD_eq_getElem?_getD, Array.getD_eq_getD_getElem?, Array.getElem?_toList]
  rw [coords, hword, r.value_foldl_addCoordinate v j.isLt, ← Fin.sum_univ_eq_sum_range
    fun i => r.value (v.getD i 0) * r.value (m.entry i j)]
  rfl

theorem reducedVec_apply (m : WordMatrix) (v : WordVec) : r.ReducedVec (r.apply m v) := by
  intro x hx
  obtain ⟨t, ht, rfl⟩ := Array.getElem_of_mem (Array.mem_def.mpr hx)
  have hword := r.reducedWords_foldl (r.reducedWords_addCoordinate m v) (List.range m.rows)
    (r.reducedWords_replicate m.cols) t
  rwa [Array.getD, dif_pos ht] at hword

/-- Two positions of a matrix stand in the same row of the array exactly if
they have the same row. -/
theorem row_window {q i x y : ℕ} (hy : y < q) :
    (i * q ≤ x * q + y ∧ x * q + y < i * q + q) ↔ x = i := by
  have hrows {a b : ℕ} (h : a < b) : a * q + q ≤ b * q := by
    rw [← Nat.succ_mul]
    exact Nat.mul_le_mul_right q h
  constructor
  · rintro ⟨hlow, hhigh⟩
    rcases lt_trichotomy x i with hlt | heq | hgt
    · have := hrows hlt
      omega
    · exact heq
    · have := hrows hgt
      omega
  · rintro rfl
    omega

/-- A turn of the inner loop adds to the words of row `i` only. -/
theorem value_addEntry (a : WordMatrix) {b : WordMatrix} {out : Array UInt64} (i p : ℕ) {x y : ℕ}
    (hy : y < b.cols) (hsize : x * b.cols + y < out.size) :
    r.value ((r.addEntry a b i out p).getD (x * b.cols + y) 0) =
      r.value (out.getD (x * b.cols + y) 0) +
        if x = i then r.value (a.entry i p) * r.value (b.entry p y) else 0 := by
  by_cases hskip : a.entry i p = 0
  · rw [addEntry, if_pos hskip, hskip, value_zero, zero_mul, ite_self, add_zero]
  rw [addEntry, if_neg hskip, r.getD_addRow b p _ _ hsize]
  by_cases hrow : x = i
  · subst hrow
    rw [if_pos ((row_window hy).mpr rfl), if_pos rfl, value_residue, value_word_add,
      value_word_mul, Nat.add_sub_cancel_left]
  · rw [if_neg (mt (row_window hy).mp hrow), if_neg hrow, add_zero]

theorem reducedWords_addEntry (a b : WordMatrix) (i : ℕ) (out : Array UInt64) (p : ℕ)
    (h : r.ReducedWords out) : r.ReducedWords (r.addEntry a b i out p) := by
  rw [addEntry]
  split_ifs
  · exact h
  · exact r.reducedWords_addRow b p _ _ h

/-- After `q` turns of the inner loop the words of row `i` have grown by the
products with the first `q` rows of `b`. -/
theorem value_foldl_addEntry (a : WordMatrix) {b : WordMatrix} {out : Array UInt64} (i : ℕ)
    {x y : ℕ} (hy : y < b.cols) (hsize : x * b.cols + y < out.size) (q : ℕ) :
    r.value (((List.range q).foldl (r.addEntry a b i) out).getD (x * b.cols + y) 0) =
      r.value (out.getD (x * b.cols + y) 0) +
        if x = i then ∑ p ∈ Finset.range q, r.value (a.entry i p) * r.value (b.entry p y)
        else 0 := by
  induction q with
  | zero => simp
  | succ q ih =>
      rw [List.range_succ, List.foldl_append, List.foldl_cons, List.foldl_nil,
        r.value_addEntry a i q hy (by rwa [size_foldl_of_step (r.size_addEntry a b i)]), ih,
        Finset.sum_range_succ, add_assoc]
      split_ifs
      · rfl
      · rw [add_zero]

/-- After `q` turns of the outer loop the first `q` rows are those of the
product, and the others are still zero. -/
theorem value_foldl_addEntries (a : WordMatrix) {b : WordMatrix} {x y : ℕ} (hx : x < a.rows)
    (hy : y < b.cols) (q : ℕ) :
    r.value (((List.range q).foldl (r.addEntries a b)
      (Array.replicate (a.rows * b.cols) 0)).getD (x * b.cols + y) 0) =
      if x < q then ∑ p ∈ Finset.range a.cols, r.value (a.entry x p) * r.value (b.entry p y)
      else 0 := by
  have hflat := WordMatrix.flat_lt hx hy
  induction q with
  | zero => simp [hflat]
  | succ q ih =>
      have hsize : x * b.cols + y < ((List.range q).foldl (r.addEntries a b)
          (Array.replicate (a.rows * b.cols) 0)).size := by
        rwa [size_foldl_of_step (r.size_addEntries a b), Array.size_replicate]
      rw [List.range_succ, List.foldl_append, List.foldl_cons, List.foldl_nil, addEntries,
        r.value_foldl_addEntry a q hy hsize, ih]
      rcases lt_trichotomy x q with hlt | rfl | hgt
      · rw [if_pos hlt, if_neg hlt.ne, if_pos (by omega), add_zero]
      · rw [if_neg (lt_irrefl _), if_pos rfl, if_pos (by omega), zero_add]
      · rw [if_neg (by omega), if_neg hgt.ne', if_neg (by omega), add_zero]

theorem view_multiply {a b : WordMatrix} (ha : a.rows = k) (hal : a.cols = l)
    (hb : b.cols = n) :
    r.view k n (r.multiply a b) = r.view k l a * r.view l n b := by
  subst ha hal hb
  ext i j
  have hentry := r.value_foldl_addEntries a i.isLt j.isLt a.rows
  rw [if_pos i.isLt, ← Fin.sum_univ_eq_sum_range
    fun p => r.value (a.entry i p) * r.value (b.entry p j)] at hentry
  exact hentry

theorem reducedMatrix_multiply (a b : WordMatrix) :
    r.ReducedMatrix k n (r.multiply a b) := by
  intro i _ j _
  exact r.reducedWords_foldl
    (fun _ i h => r.reducedWords_foldl (r.reducedWords_addEntry a b i) _ h) (List.range a.rows)
    (r.reducedWords_replicate _) _

theorem view_identityOf : r.view k k (identityOf k) = 1 := by
  rw [identityOf, view_ofFn]
  ext i j
  rw [Matrix.of_apply, Matrix.one_apply]
  by_cases h : i = j
  · simp [h]
  · simp [h, Fin.val_ne_of_ne h]

end WordRing

end AffineRelations
