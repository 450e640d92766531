import AffineRelations.Proofs.Word.MatrixView

/-!
# Products of matrices and what they do to vectors

A product is summed up in place on words that need not be reduced, and its
entries are the reduced words of the product over `Z/2^w`. So multiplying is associative,
and a vector times a product of matrices is the vector taken through them one
after another. A composition fails if a factor is missing or does not fit the
one before it, and for no other reason.
-/
namespace AffineRelations

/-- A matrix has a row and a column. -/
def WordMatrix.Proper (m : WordMatrix) : Prop := 0 < m.rows ∧ 0 < m.cols

/-- Some factor after the first is missing, or has not as many rows as the
factor before it has columns. -/
def BreaksOff (ms : List (Option WordMatrix)) : Prop :=
  ∃ i, ms[i + 1]? = some none ∨
    ∃ a b, ms[i]? = some (some a) ∧ ms[i + 1]? = some (some b) ∧ a.cols ≠ b.rows

theorem breaksOff_cons_none (m : Option WordMatrix) (ms : List (Option WordMatrix)) :
    BreaksOff (m :: none :: ms) := ⟨0, .inl rfl⟩

theorem not_breaksOff_singleton (m : Option WordMatrix) : ¬BreaksOff [m] := by
  rintro ⟨i, h | ⟨a, b, -, h, -⟩⟩ <;> simp at h

theorem breaksOff_cons_some (a b : WordMatrix) (ms : List (Option WordMatrix)) :
    BreaksOff (some a :: some b :: ms) ↔ a.cols ≠ b.rows ∨ BreaksOff (some b :: ms) := by
  constructor
  · rintro ⟨i | i, h | ⟨a', b', ha, hb, hne⟩⟩
    · simp at h
    · obtain rfl : a = a' := by simpa using ha
      obtain rfl : b = b' := by simpa using hb
      exact .inl hne
    · exact .inr ⟨i, .inl h⟩
    · exact .inr ⟨i, .inr ⟨a', b', ha, hb, hne⟩⟩
  · rintro (hne | ⟨i, h⟩)
    · exact ⟨0, .inr ⟨a, b, rfl, rfl, hne⟩⟩
    · exact ⟨i + 1, h⟩

/-- Of the first factor only the number of columns counts. -/
theorem breaksOff_congr {a a' : WordMatrix} (h : a.cols = a'.cols)
    (ms : List (Option WordMatrix)) : BreaksOff (some a :: ms) ↔ BreaksOff (some a' :: ms) := by
  match ms with
  | [] => simp only [not_breaksOff_singleton]
  | none :: ms => simp only [breaksOff_cons_none]
  | some b :: ms => rw [breaksOff_cons_some, breaksOff_cons_some, h]

theorem not_breaksOff_of_isChain {ms : List WordMatrix}
    (h : ms.IsChain fun a b => a.cols = b.rows) : ¬BreaksOff (ms.map some) := by
  induction h with
  | nil =>
      rintro ⟨i, h | ⟨a, b, -, h, -⟩⟩ <;> simp at h
  | singleton m => exact not_breaksOff_singleton _
  | cons_cons hfit _ ih =>
      rw [List.map_cons, List.map_cons, breaksOff_cons_some]
      exact not_or.mpr ⟨not_not.mpr hfit, ih⟩

namespace WordRing
variable (r : WordRing) {a b : WordMatrix}

/-- Taking a vector through two matrices is taking it through their product. -/
theorem apply_multiply (hab : a.cols = b.rows) (v : WordVec) :
    r.apply (r.multiply a b) v = r.apply b (r.apply a v) := by
  refine r.coords_inj (n := b.cols) (r.length_apply _ _) (r.length_apply b _)
    (r.reducedVec_apply _ _) (r.reducedVec_apply _ _) ?_
  calc r.coords b.cols (r.apply (r.multiply a b) v)
      = Matrix.vecMul (r.coords a.rows v) (r.view a.rows b.cols (r.multiply a b)) :=
        r.coords_apply (m := r.multiply a b) (k := a.rows) (l := b.cols) rfl rfl
    _ = Matrix.vecMul (r.coords a.rows v) (r.view a.rows b.rows a * r.view b.rows b.cols b) := by
        rw [r.view_multiply rfl hab rfl]
    _ = Matrix.vecMul (r.coords b.rows (r.apply a v)) (r.view b.rows b.cols b) := by
        rw [← Matrix.vecMul_vecMul, r.coords_apply rfl hab]
    _ = r.coords b.cols (r.apply b (r.apply a v)) := (r.coords_apply rfl rfl).symm

theorem multiply_assoc (hab : a.cols = b.rows) (c : WordMatrix) :
    r.multiply (r.multiply a b) c = r.multiply a (r.multiply b c) := by
  refine r.view_inj ⟨rfl, rfl⟩ ⟨rfl, rfl⟩ (r.reducedMatrix_multiply _ _)
    (r.reducedMatrix_multiply _ _) ?_
  have hleft : r.view a.rows c.cols (r.multiply (r.multiply a b) c) =
      r.view a.rows b.rows a * r.view b.rows b.cols b * r.view b.cols c.cols c := by
    rw [← r.view_multiply rfl hab rfl]
    exact r.view_multiply rfl rfl rfl
  have hright : r.view a.rows c.cols (r.multiply a (r.multiply b c)) =
      r.view a.rows b.rows a * (r.view b.rows b.cols b * r.view b.cols c.cols c) := by
    rw [← r.view_multiply rfl rfl rfl]
    exact r.view_multiply rfl hab rfl
  exact hleft.trans ((Matrix.mul_assoc _ _ _).trans hright.symm)

theorem matMul_of_fit (hab : a.cols = b.rows) (ha : 0 < a.rows) (hb : 0 < b.cols) :
    r.matMul a b = .ok (r.multiply a b) := by
  have hsides : ¬(a.rows = 0 ∨ b.cols = 0) := by omega
  rw [matMul, if_neg (not_not.mpr hab), if_neg hsides]

/-- The vector times the product is what the two products in a row give, also
when its length is refused. -/
theorem vecMul_multiply (hab : a.cols = b.rows) (v : WordVec) :
    r.vecMul (r.multiply a b) v = r.vecMul a v >>= r.vecMul b := by
  by_cases hv : v.length = a.rows
  · have hfirst : r.vecMul a v = .ok (r.apply a v) := if_pos hv
    have hsecond : r.vecMul b (r.apply a v) = .ok (r.apply b (r.apply a v)) :=
      if_pos ((r.length_apply a v).trans hab)
    have hproduct : r.vecMul (r.multiply a b) v = .ok (r.apply (r.multiply a b) v) := if_pos hv
    rw [hproduct, hfirst, r.apply_multiply hab v]
    exact hsecond.symm
  · have hfirst : r.vecMul a v = .error (.vecMulLength v.length a.rows) := if_neg hv
    have hproduct : r.vecMul (r.multiply a b) v = .error (.vecMulLength v.length a.rows) :=
      if_neg hv
    rw [hproduct, hfirst]
    rfl

/-- Multiplying onto a first factor fails exactly if the factors break off. -/
theorem composeOnto_eq_error_iff {acc : WordMatrix} (hacc : acc.Proper)
    {ms : List (Option WordMatrix)} (hms : ∀ m, some m ∈ ms → m.Proper) :
    (∃ e, r.composeOnto acc ms = .error e) ↔ BreaksOff (some acc :: ms) := by
  induction ms generalizing acc with
  | nil => simp [composeOnto, not_breaksOff_singleton]
  | cons m ms ih =>
      cases m with
      | none => simp [composeOnto, matMul?, breaksOff_cons_none]
      | some b =>
          have hb : b.Proper := hms b (by simp)
          rw [breaksOff_cons_some]
          by_cases hfit : acc.cols = b.rows
          · have hstep : r.composeOnto acc (some b :: ms) = r.composeOnto (r.multiply acc b) ms := by
              rw [composeOnto, matMul?, r.matMul_of_fit hfit hacc.1 hb.2]
            have hproduct : (r.multiply acc b).Proper := ⟨hacc.1, hb.2⟩
            rw [hstep, ih hproduct fun m hm => hms m (by simp [hm])]
            have hcols : (r.multiply acc b).cols = b.cols := rfl
            simp only [breaksOff_congr hcols, hfit, ne_eq, not_true_eq_false, false_or]
          · simp [composeOnto, matMul?, matMul, hfit]

/-- A composition that succeeds takes every vector through its factors. -/
theorem vecMul_composeOnto {acc m : WordMatrix} {ms : List WordMatrix}
    (h : r.composeOnto acc (ms.map some) = .ok m) (v : WordVec) :
    r.vecMul m v = (acc :: ms).foldlM (fun v m => r.vecMul m v) v := by
  induction ms generalizing acc with
  | nil =>
      obtain rfl : acc = m := by simpa [composeOnto] using h
      simp
  | cons b ms ih =>
      rw [List.map_cons, composeOnto, matMul?] at h
      split at h
      next product hproduct =>
        have hfit : acc.cols = b.rows := by
          by_contra hne
          simp [matMul, hne] at hproduct
        obtain rfl : r.multiply acc b = product := by
          unfold matMul at hproduct
          split_ifs at hproduct
          exact Except.ok.inj hproduct
        rw [ih h, List.foldlM_cons, r.vecMul_multiply hfit, bind_assoc]
        simp only [List.foldlM_cons]
      next => cases h

/-- On words that need not be reduced, the product of a vector and a matrix and
that of two matrices have the reduced words of the products over `Z/2^w`.
Products are associative, and a composition of matrices that fit acts on every
vector as its factors do one after another. A composition whose first factor is
there fails exactly if it has no factor or breaks off. -/
theorem products_exact (r : WordRing) :
    (∀ (m : WordMatrix) (v : WordVec), v.length = m.rows → ∃ u, r.vecMul m v = .ok u ∧
      u.length = m.cols ∧ r.ReducedVec u ∧
      r.coords m.cols u = Matrix.vecMul (r.coords m.rows v) (r.view m.rows m.cols m)) ∧
    (∀ a b : WordMatrix, a.cols = b.rows → a.Proper → b.Proper → ∃ c, r.matMul a b = .ok c ∧
      c.rows = a.rows ∧ c.cols = b.cols ∧ r.ReducedMatrix a.rows b.cols c ∧
      r.view a.rows b.cols c = r.view a.rows b.rows a * r.view b.rows b.cols b) ∧
    (∀ a b c : WordMatrix, a.cols = b.rows → b.cols = c.rows → a.Proper → b.Proper → c.Proper →
      ∃ m, (r.matMul a b >>= fun ab => r.matMul ab c) = .ok m ∧
        (r.matMul b c >>= fun bc => r.matMul a bc) = .ok m) ∧
    (∀ (m : WordMatrix) (ms : List WordMatrix), ((m :: ms).IsChain fun a b => a.cols = b.rows) →
      (∀ a ∈ m :: ms, a.Proper) → ∃ c, r.compose ((m :: ms).map some) = some (.ok c) ∧
        ∀ v, r.vecMul c v = (m :: ms).foldlM (fun u a => r.vecMul a u) v) ∧
    ∀ ms : List (Option WordMatrix), ms.head? ≠ some none → (∀ m, some m ∈ ms → m.Proper) →
      ((∃ e, r.compose ms = some (.error e)) ↔ ms = [] ∨ BreaksOff ms) := by
  refine ⟨fun m v hv => ?_, fun a b hab ha hb => ?_, fun a b c hab hbc ha hb hc => ?_,
    fun m ms hchain hproper => ?_, fun ms hfirst hproper => ?_⟩
  · exact ⟨_, if_pos hv, r.length_apply m v, r.reducedVec_apply m v, r.coords_apply rfl rfl⟩
  · exact ⟨_, r.matMul_of_fit hab ha.1 hb.2, rfl, rfl, r.reducedMatrix_multiply _ _,
      r.view_multiply rfl hab rfl⟩
  · refine ⟨r.multiply (r.multiply a b) c, ?_, ?_⟩
    · rw [r.matMul_of_fit hab ha.1 hb.2]
      exact r.matMul_of_fit hbc ha.1 hc.2
    · rw [r.matMul_of_fit hbc hb.1 hc.2, r.multiply_assoc hab c]
      exact r.matMul_of_fit hab ha.1 hc.2
  · have hnone : ¬∃ e, r.composeOnto m (ms.map some) = .error e := by
      rw [r.composeOnto_eq_error_iff (hproper m (by simp))]
      · exact not_breaksOff_of_isChain hchain
      · simpa using fun a ha => hproper a (by simp [ha])
    cases hcompose : r.composeOnto m (ms.map some) with
    | error e => exact absurd ⟨e, hcompose⟩ hnone
    | ok c => exact ⟨c, congrArg some hcompose, r.vecMul_composeOnto hcompose⟩
  · match ms with
    | [] => simp [compose]
    | none :: ms => simp at hfirst
    | some m :: ms =>
        have hrest : ∀ a, some a ∈ ms → a.Proper := fun a ha => hproper a (by simp [ha])
        have honto := r.composeOnto_eq_error_iff (hproper m (by simp)) hrest
        simpa [compose] using honto

/-- Words of three bits, with 9 for 1 and 12 for 4: the sum `9 * 2 + 12 * 4` is
66, which is 2. -/
theorem products_exact_three_bits : ∃ (r : WordRing) (a b : WordMatrix), r.width = 3 ∧
    a.toRows = [[9, 12]] ∧ b.toRows = [[2], [4]] ∧
    (∃ u, r.vecMul a [11] = .ok u ∧ u.length = 2 ∧ r.ReducedVec u) ∧
    (∃ c, r.matMul a b = .ok c ∧ c.rows = 1 ∧ c.cols = 1 ∧ r.ReducedMatrix 1 1 c) ∧
    (∃ m, (r.matMul a b >>= fun ab => r.matMul ab a) = .ok m ∧
      (r.matMul b a >>= fun ba => r.matMul a ba) = .ok m) ∧
    (∃ c, r.compose [some a, some b] = some (.ok c) ∧ r.vecMul c [3] = .ok [6]) ∧
    ∃ e, r.compose [some a, some a] = some (.error e) := by
  let r := WordRing.ofBits 3 (by decide) (by decide)
  let a := WordMatrix.ofFn 1 2 fun _ j => if j = 0 then 9 else 12
  let b := WordMatrix.ofFn 2 1 fun i _ => if i = 0 then 2 else 4
  have ha : a.Proper := ⟨by decide, by decide⟩
  have hb : b.Proper := ⟨by decide, by decide⟩
  have hbroken : BreaksOff [some a, some a] := ⟨0, .inr ⟨a, a, rfl, rfl, by decide⟩⟩
  obtain ⟨hvec, hmat, hassoc, hcompose, hfail⟩ := products_exact r
  obtain ⟨u, hu, hlength, hreduced, -⟩ := hvec a [11] rfl
  obtain ⟨c, hc, hrows, hcols, hentries, -⟩ := hmat a b rfl ha hb
  obtain ⟨d, hd, happly⟩ := hcompose a [b] (by simp [a, b]) (by simp [ha, hb])
  exact ⟨r, a, b, rfl, by decide, by decide, ⟨u, hu, hlength, hreduced⟩,
    ⟨c, hc, hrows, hcols, hentries⟩, hassoc a b a rfl rfl ha hb ha,
    ⟨d, hd, (happly [3]).trans (by decide)⟩,
    (hfail [some a, some a] (by simp) (by simp [ha])).mpr (.inr hbroken)⟩

end WordRing

end AffineRelations
