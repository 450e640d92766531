import AffineRelations.Proofs.Word.Inverse
import AffineRelations.Proofs.Word.Valuation
import AffineRelations.Word.Vec
import Mathlib

/-!
# What a vector of words denotes

The coordinates of a vector are the elements that its words denote. A vector
that is shorter than the number of columns is read as if zeros followed. The
combination and the scaling of vectors of words are those of the coordinates,
and the span of a list of vectors is the submodule of their coordinates.
-/
namespace AffineRelations.WordRing

/-- The elements that a vector denotes in the first `n` columns. -/
def coords (r : WordRing) (n : ℕ) (v : WordVec) : Fin n → r.Elem :=
  fun i => r.value (v.getD i 0)

/-- The submodule that the vectors of a list generate. -/
def span (r : WordRing) (n : ℕ) (vs : List WordVec) : Submodule r.Elem (Fin n → r.Elem) :=
  Submodule.span r.Elem (r.coords n '' {v | v ∈ vs})

/-- A vector all of whose words are reduced. -/
def ReducedVec (r : WordRing) (v : WordVec) : Prop := ∀ x ∈ v, r.Reduced x

instance (r : WordRing) (v : WordVec) : Decidable (r.ReducedVec v) := List.decidableBAll _ v

variable (r : WordRing) {n : ℕ}

@[simp] theorem span_nil : r.span n [] = ⊥ := by simp [span]

@[simp] theorem span_cons (v : WordVec) (vs : List WordVec) :
    r.span n (v :: vs) = Submodule.span r.Elem {r.coords n v} ⊔ r.span n vs := by
  have hset : {u | u ∈ v :: vs} = insert v {u | u ∈ vs} := by
    ext u
    simp
  rw [span, hset, Set.image_insert_eq, Submodule.span_insert, span]

@[simp] theorem span_append (us vs : List WordVec) :
    r.span n (us ++ vs) = r.span n us ⊔ r.span n vs := by
  induction us with
  | nil => simp
  | cons u us ih => rw [List.cons_append, span_cons, span_cons, ih, sup_assoc]

theorem value_getD_scale (v : WordVec) (c : UInt64) (i : ℕ) :
    r.value ((r.scale v c).getD i 0) = r.value (v.getD i 0) * r.value c := by
  by_cases hi : i < v.length
  · simp [scale, hi]
  · simp [scale, hi]

theorem coords_scale (v : WordVec) (c : UInt64) :
    r.coords n (r.scale v c) = r.value c • r.coords n v := by
  funext i
  rw [Pi.smul_apply, smul_eq_mul, coords, value_getD_scale, mul_comm, coords]

theorem value_getD_combine (a : UInt64) {u v : WordVec} (b : UInt64) (h : u.length = v.length)
    (i : ℕ) : r.value ((r.combine a u b v).getD i 0) =
      r.value a * r.value (u.getD i 0) - r.value b * r.value (v.getD i 0) := by
  by_cases hi : i < u.length
  · have hv : i < v.length := h ▸ hi
    simp [combine, hi, hv]
  · have hv : ¬i < v.length := h ▸ hi
    simp [combine, hi, hv]

theorem reducedVec_scale (v : WordVec) (c : UInt64) : r.ReducedVec (r.scale v c) := by
  intro x hx
  obtain ⟨y, -, rfl⟩ := List.mem_map.mp hx
  exact r.reduced_residue _

theorem reducedVec_combine (a : UInt64) (u : WordVec) (b : UInt64) (v : WordVec) :
    r.ReducedVec (r.combine a u b v) := by
  intro x hx
  obtain ⟨i, hi, rfl⟩ := List.getElem_of_mem hx
  simp only [combine, List.getElem_zipWith]
  exact r.reduced_residue _

/-- Reduced vectors of one length that denote the same are the same. -/
theorem coords_inj {u v : WordVec} (hu : u.length = n) (hv : v.length = n)
    (hur : r.ReducedVec u) (hvr : r.ReducedVec v) (h : r.coords n u = r.coords n v) : u = v := by
  apply List.ext_getElem (hu.trans hv.symm)
  intro i hiu hiv
  have hi := congrFun h ⟨i, hu ▸ hiu⟩
  simp only [coords, List.getD_eq_getElem?_getD, List.getElem?_eq_getElem hiu,
    List.getElem?_eq_getElem hiv, Option.getD_some] at hi
  exact r.value_inj (hur _ (List.getElem_mem hiu)) (hvr _ (List.getElem_mem hiv)) hi

theorem coords_eq_zero_of_isZero {v : WordVec} (h : v.isZero = true) : r.coords n v = 0 := by
  funext i
  rw [coords, Pi.zero_apply]
  by_cases hi : (i : ℕ) < v.length
  · have hz := List.all_eq_true.mp h _ (List.getElem_mem hi)
    simp [hi, eq_of_beq hz]
  · simp [hi]

theorem coords_unit (i : Fin n) : r.coords n (WordVec.unit n i) = Pi.single i 1 := by
  funext j
  rw [coords, Pi.single_apply]
  by_cases h : j = i
  · simp [WordVec.unit, h]
  · simp [WordVec.unit, h, Fin.val_ne_of_ne h]

theorem reducedVec_unit (n i : ℕ) : r.ReducedVec (WordVec.unit n i) := by
  intro x hx
  obtain ⟨j, -, rfl⟩ := List.mem_map.mp hx
  split_ifs
  · exact r.reduced_one
  · exact r.reduced_zero

end AffineRelations.WordRing
