import AffineRelations.Proofs.GeneratorSet.Insertion

/-!
# The span of a generator set

An insertion adds the inserted vector to the span and nothing else. A vector
that is not stored lives on in what is: its companion is a multiple of it, and
of two vectors with leads in one column each is recovered from the other and
the resolvent, because the resolvent contains it with an odd factor.

`Built` follows a set from the empty one through any number of insertions.
-/
namespace AffineRelations

namespace WordRing
variable (r : WordRing) {n : ℕ}

/-- The coordinates of a vector whose first word stands in column `j`. -/
def coordsFrom (n j : ℕ) (v : WordVec) : Fin n → r.Elem :=
  r.coords n (List.replicate j 0 ++ v)

theorem coordsFrom_apply (j : ℕ) (v : WordVec) (i : Fin n) :
    r.coordsFrom n j v i = if (i : ℕ) < j then 0 else r.value (v.getD (i - j) 0) := by
  simp only [coordsFrom, coords, List.getD_eq_getElem?_getD, List.getElem?_append,
    List.length_replicate]
  split_ifs with h
  · simp [h]
  · rfl

theorem coordsFrom_nil (j : ℕ) : r.coordsFrom n j [] = 0 := by
  funext i
  simp [coordsFrom_apply]

theorem coordsFrom_zero_cons (j : ℕ) (xs : WordVec) :
    r.coordsFrom n j (0 :: xs) = r.coordsFrom n (j + 1) xs := by
  rw [coordsFrom, coordsFrom, List.replicate_succ', List.append_assoc, List.singleton_append]

theorem coordsFrom_cons_of_lt {j : ℕ} (x : UInt64) (xs : WordVec) {i : Fin n} (h : j < i) :
    r.coordsFrom n j (x :: xs) i = r.value (xs.getD (i - (j + 1)) 0) := by
  have hi : (i : ℕ) - j = (i - (j + 1)) + 1 := by omega
  rw [coordsFrom_apply, if_neg (by omega), hi, List.getD_cons_succ]

theorem coordsFrom_companion (j : ℕ) (x : UInt64) (xs : WordVec) :
    r.coordsFrom n (j + 1) (r.companion x xs) =
      (2 : r.Elem) ^ (r.width - r.valuation x) • r.coordsFrom n j (x :: xs) := by
  funext i
  rw [Pi.smul_apply, smul_eq_mul]
  rcases lt_trichotomy (i : ℕ) j with h | h | h
  · simp [coordsFrom_apply, h, Nat.lt_succ_of_lt h]
  · -- in the column of the lead the powers of two meet to `2^w`
    have hle : r.valuation x ≤ r.width := r.valuation_le x
    have hlead : r.coordsFrom n j (x :: xs) i = r.value x := by simp [coordsFrom_apply, h]
    rw [coordsFrom_apply, if_pos (by omega), hlead, r.value_eq_two_pow_mul x, ← mul_assoc,
      ← pow_add, show r.width - r.valuation x + (r.split x).1 = r.width from
        Nat.sub_add_cancel hle, two_pow_width_eq_zero, zero_mul]
  · rw [r.coordsFrom_cons_of_lt x xs h, coordsFrom_apply, if_neg (by omega), companion,
      value_getD_scale, r.value_pow2_sub (r.valuation_le x), mul_comm]

theorem coordsFrom_resolvent (j : ℕ) {x y : UInt64} {xs ys : WordVec}
    (hlen : xs.length = ys.length) (hle : r.valuation x ≤ r.valuation y) :
    r.coordsFrom n (j + 1) (r.resolvent x xs y ys) =
      r.value (r.split x).2 • r.coordsFrom n j (y :: ys) -
        ((2 : r.Elem) ^ (r.valuation y - r.valuation x) * r.value (r.split y).2) •
          r.coordsFrom n j (x :: xs) := by
  funext i
  rw [Pi.sub_apply, Pi.smul_apply, Pi.smul_apply, smul_eq_mul, smul_eq_mul]
  rcases lt_trichotomy (i : ℕ) j with h | h | h
  · simp [coordsFrom_apply, h, Nat.lt_succ_of_lt h]
  · have hx : r.coordsFrom n j (x :: xs) i = 2 ^ r.valuation x * r.value (r.split x).2 := by
      rw [valuation, ← value_eq_two_pow_mul]
      simp [coordsFrom_apply, h]
    have hy : r.coordsFrom n j (y :: ys) i = 2 ^ r.valuation y * r.value (r.split y).2 := by
      rw [valuation, ← value_eq_two_pow_mul]
      simp [coordsFrom_apply, h]
    have hpow : (2 : r.Elem) ^ r.valuation y =
        2 ^ (r.valuation y - r.valuation x) * 2 ^ r.valuation x := by
      rw [← pow_add, Nat.sub_add_cancel hle]
    rw [coordsFrom_apply, if_pos (by omega), hx, hy, hpow]
    ring
  · have hsplit : (r.split x).1 ≤ (r.split y).1 := hle
    rw [r.coordsFrom_cons_of_lt x xs h, r.coordsFrom_cons_of_lt y ys h, coordsFrom_apply,
      if_neg (by omega), resolvent, value_getD_combine r _ _ hlen.symm, value_mul,
      r.value_pow2_sub hsplit]
    rfl

end WordRing

section Submodule
variable {R M : Type*} [CommRing R] [AddCommGroup M] [Module R M]

theorem span_sup_span_smul (a : R) (x : M) :
    Submodule.span R {x} ⊔ Submodule.span R {a • x} = Submodule.span R {x} := by
  rw [sup_eq_left, Submodule.span_singleton_le_iff_mem]
  exact Submodule.smul_mem _ a (Submodule.mem_span_singleton_self x)

/-- A vector is recovered from a combination that contains it with a unit. -/
theorem span_sup_span_combination {u : R} (hu : IsUnit u) (m : R) (x y : M) :
    Submodule.span R {x} ⊔ Submodule.span R {u • y - m • x} =
      Submodule.span R {x} ⊔ Submodule.span R {y} := by
  obtain ⟨u, rfl⟩ := hu
  have hx : x ∈ Submodule.span R {x} := Submodule.mem_span_singleton_self x
  apply le_antisymm
  · refine sup_le le_sup_left ?_
    rw [Submodule.span_singleton_le_iff_mem]
    refine Submodule.sub_mem _ (Submodule.smul_mem _ _ ?_) (Submodule.smul_mem _ _ ?_)
    · exact Submodule.mem_sup_right (Submodule.mem_span_singleton_self y)
    · exact Submodule.mem_sup_left hx
  · refine sup_le le_sup_left ?_
    rw [Submodule.span_singleton_le_iff_mem]
    have hy : (↑u⁻¹ : R) • ((↑u : R) • y - m • x) + (↑u⁻¹ * m : R) • x = y := by
      rw [smul_sub, smul_smul, smul_smul, Units.inv_mul, one_smul, sub_add_cancel]
    have hmem := Submodule.add_mem (Submodule.span R {x} ⊔ Submodule.span R {(↑u : R) • y - m • x})
      (Submodule.smul_mem _ (↑u⁻¹ : R)
        (Submodule.mem_sup_right (Submodule.mem_span_singleton_self _)))
      (Submodule.smul_mem _ (↑u⁻¹ * m : R) (Submodule.mem_sup_left hx))
    rwa [hy] at hmem

end Submodule

namespace Slots
variable {r : WordRing} {n : ℕ}

@[simp] theorem span_vectorsFrom_none (j : ℕ) (slots : Slots) :
    r.span n (vectorsFrom j (none :: slots)) = r.span n (vectorsFrom (j + 1) slots) := by
  rw [vectorsFrom]

@[simp] theorem span_vectorsFrom_some (j : ℕ) (g : Generator) (slots : Slots) :
    r.span n (vectorsFrom j (some g :: slots)) =
      Submodule.span r.Elem {r.coordsFrom n j (g.lead :: g.rest)} ⊔
        r.span n (vectorsFrom (j + 1) slots) := by
  rw [vectorsFrom, WordRing.span_cons]
  rfl

/-- An insertion adds what was inserted to the span. -/
theorem Inserts.span_eq {slots slots' : Slots} {v : WordVec} {b : Bool}
    (h : Inserts r slots v b slots') (j : ℕ) :
    r.span n (vectorsFrom j slots') =
      r.span n (vectorsFrom j slots) ⊔ Submodule.span r.Elem {r.coordsFrom n j v} := by
  induction h generalizing j with
  | nil => simp [WordRing.coordsFrom_nil]
  | @skip slot slots slots' xs b _ _ ih =>
      rw [WordRing.coordsFrom_zero_cons]
      cases slot with
      | none => simpa using ih (j + 1)
      | some g => rw [span_vectorsFrom_some, span_vectorsFrom_some, ih (j + 1), sup_assoc]
  | @settle slots slots' x xs b _ _ _ ih =>
      rw [span_vectorsFrom_some, span_vectorsFrom_none, ih (j + 1), r.coordsFrom_companion,
        sup_left_comm, span_sup_span_smul]
  | front => rw [span_vectorsFrom_some, span_vectorsFrom_none, sup_comm]
  | @evict slots slots₁ slots₂ g x xs b₁ b₂ hx hg hlt _ _ ih₁ ih₂ =>
      have hlen : xs.length = g.rest.length := hx.length_rest.trans hg.length_rest.symm
      have hu : IsUnit (r.value (r.split x).2) := r.isUnit_oddPart hx.value_ne_zero
      rw [span_vectorsFrom_some, span_vectorsFrom_some, ih₂ (j + 1), ih₁ (j + 1),
        r.coordsFrom_companion, r.coordsFrom_resolvent j hlen hlt.le]
      dsimp only
      rw [← sup_assoc, sup_left_comm, span_sup_span_smul, sup_assoc,
        span_sup_span_combination hu]
      ac_rfl
  | @keep slots slots' g x xs b hx hg hle _ ih =>
      have hlen : g.rest.length = xs.length := hg.length_rest.trans hx.length_rest.symm
      have hu := r.isUnit_oddPart hg.value_ne_zero
      rw [span_vectorsFrom_some, span_vectorsFrom_some, ih (j + 1),
        r.coordsFrom_resolvent j hlen hle, sup_left_comm, span_sup_span_combination hu]
      ac_rfl

/-- A vector is generated if its resolvent by a stored one is generated behind
the lead. -/
theorem mem_span_of_resolvent_mem {slots : Slots} {g : Generator} {x : UInt64} {xs : WordVec}
    (hg : g.Fits r slots.length) (hlen : xs.length = slots.length)
    (hle : r.valuation g.lead ≤ r.valuation x) {j : ℕ}
    (hres : r.coordsFrom n (j + 1) (r.resolvent g.lead g.rest x xs) ∈
      r.span n (vectorsFrom (j + 1) slots)) :
    r.coordsFrom n j (x :: xs) ∈ r.span n (vectorsFrom j (some g :: slots)) := by
  have hu := r.isUnit_oddPart hg.value_ne_zero
  rw [r.coordsFrom_resolvent j (hg.length_rest.trans hlen.symm) hle,
    ← Submodule.span_singleton_le_iff_mem] at hres
  rw [span_vectorsFrom_some, ← Submodule.span_singleton_le_iff_mem]
  calc Submodule.span r.Elem {r.coordsFrom n j (x :: xs)}
      ≤ _ ⊔ Submodule.span r.Elem {r.coordsFrom n j (x :: xs)} := le_sup_right
    _ = _ := (span_sup_span_combination hu _ (r.coordsFrom n j (g.lead :: g.rest)) _).symm
    _ ≤ _ := sup_le_sup_left hres _

/-- A vector that changes no slot was in the span. -/
theorem Inserts.mem_span {slots slots' : Slots} {v : WordVec} {b : Bool}
    (h : Inserts r slots v b slots') (hb : b = false) (j : ℕ) :
    r.coordsFrom n j v ∈ r.span n (vectorsFrom j slots) := by
  induction h generalizing j with
  | nil =>
      rw [WordRing.coordsFrom_nil]
      exact Submodule.zero_mem _
  | @skip slot slots slots' xs b _ _ ih =>
      rw [WordRing.coordsFrom_zero_cons]
      cases slot with
      | none => simpa using ih hb (j + 1)
      | some g =>
          rw [span_vectorsFrom_some]
          exact Submodule.mem_sup_right (ih hb (j + 1))
  | settle => cases hb
  | front => cases hb
  | evict => cases hb
  | keep hx hg hle _ ih =>
      exact mem_span_of_resolvent_mem hg hx.length_rest hle (ih hb (j + 1))

end Slots

namespace GeneratorSet

/-- A set over a ring, with well-formed generators of one dimension. -/
structure Fits (r : WordRing) (n : ℕ) (s : GeneratorSet) : Prop where
  ring_eq : s.ring = r
  length_slots : s.slots.length = n
  slots_fit : s.slots.Fits r

theorem fits_empty (r : WordRing) (n : ℕ) : (empty r n).Fits r n where
  ring_eq := rfl
  length_slots := by simp [empty]
  slots_fit := Slots.fits_replicate_none r n

theorem vectors_empty (r : WordRing) (n : ℕ) : (empty r n).vectors = [] := by
  have hnone (j : ℕ) : Slots.vectorsFrom j (List.replicate n none) = [] := by
    induction n generalizing j with
    | zero => rfl
    | succ n ih => exact ih (j + 1)
  exact hnone 0

variable {r : WordRing} {n : ℕ}

/-- A reduced vector of the set's dimension can always be inserted. -/
theorem Fits.insert_eq {s : GeneratorSet} (hs : s.Fits r n) {v : WordVec}
    (hlen : v.length = n) (hv : r.ReducedVec v) :
    ∃ b s', s.insert v = .ok (b, s') ∧ s'.Fits r n ∧ Slots.Inserts r s.slots v b s'.slots := by
  obtain ⟨rfl, hslots, hfit⟩ := hs
  have heq : v.length = s.slots.length := hlen.trans hslots.symm
  have hi := Slots.inserts_insert hfit heq hv
  refine ⟨(Slots.insert s.ring s.slots v).1, ⟨s.ring, (Slots.insert s.ring s.slots v).2⟩,
    ?_, ⟨rfl, hi.length_eq.trans hslots, hi.fits⟩, hi⟩
  rw [insert, dim, if_pos heq]

theorem span_vectors_of_inserts {s s' : GeneratorSet} {v : WordVec} {b : Bool}
    (h : Slots.Inserts r s.slots v b s'.slots) :
    r.span n s'.vectors = r.span n s.vectors ⊔ Submodule.span r.Elem {r.coords n v} :=
  h.span_eq 0

theorem mem_span_of_inserts {s s' : GeneratorSet} {v : WordVec}
    (h : Slots.Inserts r s.slots v false s'.slots) : r.coords n v ∈ r.span n s.vectors :=
  h.mem_span rfl 0

/-- The sets that insertions of reduced vectors make from the empty set, with
the vectors in the order of insertion. -/
inductive Built (r : WordRing) (n : ℕ) : List WordVec → GeneratorSet → Prop
  | empty : Built r n [] (empty r n)
  | insert {vs : List WordVec} {s s' : GeneratorSet} {v : WordVec} {b : Bool} :
      Built r n vs s → v.length = n → r.ReducedVec v → s.insert v = .ok (b, s') →
      Built r n (vs ++ [v]) s'

theorem Built.fits {vs : List WordVec} {s : GeneratorSet} (h : Built r n vs s) :
    s.Fits r n := by
  induction h with
  | empty => exact fits_empty r n
  | insert _ hlen hv he ih =>
      obtain ⟨b, s', he', hs', -⟩ := ih.insert_eq hlen hv
      cases he.symm.trans he'
      exact hs'

theorem Built.span_vectors {vs : List WordVec} {s : GeneratorSet} (h : Built r n vs s) :
    r.span n s.vectors = r.span n vs := by
  induction h with
  | empty => rw [vectors_empty]
  | insert hb hlen hv he ih =>
      obtain ⟨b, s', he', -, hi⟩ := hb.fits.insert_eq hlen hv
      cases he.symm.trans he'
      rw [span_vectors_of_inserts hi, ih, WordRing.span_append, WordRing.span_cons,
        WordRing.span_nil, sup_bot_eq]

/-- The stored vectors generate what the inserted vectors generate. A further
insertion adds its vector to the span, and does nothing only if the vector is
in the span already. -/
theorem span_of_built {vs : List WordVec} {s : GeneratorSet} (h : Built r n vs s) :
    r.span n s.vectors = r.span n vs ∧
      ∀ v : WordVec, v.length = n → r.ReducedVec v → ∃ b s', s.insert v = .ok (b, s') ∧
        r.span n s'.vectors = r.span n s.vectors ⊔ Submodule.span r.Elem {r.coords n v} ∧
        (b = false → r.coords n v ∈ r.span n s.vectors) := by
  refine ⟨h.span_vectors, ?_⟩
  intro v hlen hv
  obtain ⟨b, s', he, -, hi⟩ := h.fits.insert_eq hlen hv
  refine ⟨b, s', he, span_vectors_of_inserts hi, ?_⟩
  rintro rfl
  exact mem_span_of_inserts hi

/-- Modulo 8, the second vector evicts the first one and its companion, and
neither the first vector nor the companion is lost. -/
theorem span_of_evicting : ∃ (r : WordRing) (s : GeneratorSet), r.width = 3 ∧
    Built r 2 [[4, 1], [2, 3]] s ∧ s.vectors = [[2, 3], [0, 3]] ∧
    r.span 2 s.vectors = r.span 2 [[4, 1], [2, 3]] := by
  let r := WordRing.ofBits 3 (by decide) (by decide)
  have h₁ : (empty r 2).insert [4, 1] = .ok (true, ⟨r, [some ⟨4, [1]⟩, some ⟨2, []⟩]⟩) := by
    decide +kernel
  have h₂ : GeneratorSet.insert ⟨r, [some ⟨4, [1]⟩, some ⟨2, []⟩]⟩ [2, 3] =
      .ok (true, ⟨r, [some ⟨2, [3]⟩, some ⟨3, []⟩]⟩) := by
    decide +kernel
  have hb : Built r 2 [[4, 1], [2, 3]] ⟨r, [some ⟨2, [3]⟩, some ⟨3, []⟩]⟩ :=
    (Built.empty.insert (by decide) (by decide) h₁).insert (by decide) (by decide) h₂
  exact ⟨r, _, rfl, hb, by decide, (span_of_built hb).1⟩

end GeneratorSet

end AffineRelations
