import AffineRelations.Proofs.GeneratorSet.Span
import AffineRelations.Proofs.Word.MatrixView

/-!
# The vectors that a generator set stores

At most one generator stands in each column. The stored vectors have the
dimension of the set, their words are reduced, and those whose lead is behind
column `j` are zero up to there. So they can be written as the first rows of a
square matrix that zeros fill up.
-/
namespace AffineRelations

namespace Slots
variable {r : WordRing}

theorem length_vectorsFrom_le (j : ℕ) (slots : Slots) :
    (vectorsFrom j slots).length ≤ slots.length := by
  induction slots generalizing j with
  | nil => exact Nat.le_refl 0
  | cons slot slots ih =>
      cases slot with
      | none => exact (ih (j + 1)).trans (Nat.le_succ _)
      | some g => exact Nat.succ_le_succ (ih (j + 1))

theorem vectorsFrom_shape {slots : Slots} (h : slots.Fits r) {j : ℕ} {v : WordVec}
    (hv : v ∈ vectorsFrom j slots) :
    v.length = j + slots.length ∧ r.ReducedVec v ∧ ∀ i < j, v.getD i 0 = 0 := by
  induction slots generalizing j with
  | nil => cases hv
  | cons slot slots ih =>
      have hrest (hv : v ∈ vectorsFrom (j + 1) slots) :
          v.length = j + (slot :: slots).length ∧ r.ReducedVec v ∧ ∀ i < j, v.getD i 0 = 0 := by
        obtain ⟨hlen, hred, hzero⟩ := ih h.2 hv
        refine ⟨?_, hred, fun i hi => hzero i (Nat.lt_succ_of_lt hi)⟩
        rw [hlen, List.length_cons]
        omega
      cases slot with
      | none => exact hrest hv
      | some g =>
          rcases List.mem_cons.mp hv with rfl | hv
          · have hfit := h.1 g rfl
            refine ⟨by simp [hfit.length_rest], ?_, ?_⟩
            · intro x hx
              rcases List.mem_append.mp hx with hx | hx
              · rw [List.eq_of_mem_replicate hx]
                exact r.reduced_zero
              · rcases List.mem_cons.mp hx with rfl | hx
                · exact hfit.lead_reduced
                · exact hfit.rest_reduced x hx
            · intro i hi
              simp [List.getElem?_append, hi]
          · exact hrest hv

end Slots

namespace GeneratorSet
variable {r : WordRing} {n : ℕ} {s : GeneratorSet}

theorem size_le_dim (s : GeneratorSet) : s.size ≤ s.dim := Slots.length_vectorsFrom_le 0 s.slots

theorem Fits.shape (h : s.Fits r n) {v : WordVec} (hv : v ∈ s.vectors) :
    v.length = n ∧ r.ReducedVec v := by
  obtain ⟨hlen, hred, -⟩ := Slots.vectorsFrom_shape h.slots_fit hv
  exact ⟨by rw [hlen, h.length_slots, Nat.zero_add], hred⟩

/-- Reduced vectors of one dimension can be inserted in a row. -/
theorem exists_built {vs : List WordVec} (h : ∀ v ∈ vs, v.length = n ∧ r.ReducedVec v) :
    ∃ s, Built r n vs s := by
  induction vs using List.reverseRecOn with
  | nil => exact ⟨_, .empty⟩
  | append_singleton vs v ih =>
      obtain ⟨s, hs⟩ := ih fun u hu => h u (List.mem_append_left _ hu)
      obtain ⟨hlen, hred⟩ := h v (List.mem_append_right _ List.mem_cons_self)
      obtain ⟨b, s', hins, -⟩ := hs.fits.insert_eq hlen hred
      exact ⟨s', hs.insert hlen hred hins⟩

/-- The square matrix whose first rows are the stored vectors. -/
def matrix (s : GeneratorSet) : WordMatrix :=
  .ofFn s.dim s.dim fun i j => (s.vectors.getD i []).getD j 0

theorem Fits.square_matrix (h : s.Fits r n) : s.matrix.Square n := by
  rw [matrix, dim, h.length_slots]
  exact WordMatrix.square_ofFn n _

theorem Fits.reduced_matrix (h : s.Fits r n) : r.ReducedMatrix n n s.matrix := by
  intro i hi j hj
  rw [matrix, dim, h.length_slots, WordMatrix.entry_ofFn _ hi hj]
  by_cases hlt : i < s.vectors.length
  · have hv := h.shape (List.getElem_mem hlt)
    simpa [hlt, hv.1, hj] using hv.2 _ (List.getElem_mem (hv.1 ▸ hj))
  · simpa [hlt] using r.reduced_zero

theorem Fits.toRows_matrix (h : s.Fits r n) :
    s.matrix.toRows = s.vectors ++ List.replicate (n - s.size) (List.replicate n 0) := by
  have hdim : s.dim = n := h.length_slots
  have hsize : s.vectors.length ≤ n := hdim ▸ s.size_le_dim
  have hrow (i : ℕ) (hi : i < n) : s.matrix.rowVec i =
      (List.range n).map fun j => (s.vectors.getD i []).getD j 0 := by
    rw [WordMatrix.rowVec, h.square_matrix.cols_eq, matrix, hdim]
    refine List.map_congr_left fun j hj => ?_
    exact WordMatrix.entry_ofFn _ hi (List.mem_range.mp hj)
  rw [WordMatrix.toRows, h.square_matrix.rows_eq]
  apply List.ext_getElem
  · simp [size]
    omega
  · intro i hi _
    have hi : i < n := by simpa using hi
    rw [List.getElem_map, List.getElem_range, hrow i hi]
    by_cases hlt : i < s.vectors.length
    · have hlen := (h.shape (List.getElem_mem hlt)).1
      rw [List.getElem_append_left hlt]
      apply List.ext_getElem
      · simp [hlen]
      · intro j hj _
        have hj : j < n := by simpa using hj
        simp [hlt, hlen, hj]
    · rw [List.getElem_append_right (by omega), List.getElem_replicate]
      simp [hlt, List.map_const']

end GeneratorSet

end AffineRelations
