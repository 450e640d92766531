import AffineRelations.Proofs.GeneratorSet.Saturation

/-!
# Membership

The membership test takes an exact multiple of a stored vector away where an
insertion forms the resolvent. The resolvent is what the test keeps, scaled by
the odd part of the stored lead, and from there on the two walk with vectors
that differ by an odd factor. Odd factors are not invisible: the odd part of a
scaled lead is known only up to `2^(w-k)`, so the remainders may differ by a
multiple of a companion.

So the two decide alike if behind each lead with an odd factor the companions
are generated. Everywhere, each of them accepts only members of the span.
-/
namespace AffineRelations

namespace WordRing
variable (r : WordRing)

/-- Behind each vector whose lead is not a power of two the vectors are
saturated. -/
def SaturatedBehindOdd (n : ℕ) : List WordVec → Prop
  | [] => True
  | v :: vs => ((r.split v.leadEntry).2 = 1 ∨ r.Saturated n vs) ∧ SaturatedBehindOdd n vs

end WordRing

namespace Slots
variable {r : WordRing} {n : ℕ}

theorem contains_zero_cons (slot : Option Generator) (slots : Slots) (xs : WordVec) :
    contains r (slot :: slots) (0 :: xs) = contains r slots xs := by
  cases slot <;> simp only [contains, if_true]

theorem contains_none_cons (slots : Slots) {x : UInt64} (hx : x ≠ 0) (xs : WordVec) :
    contains r (none :: slots) (x :: xs) = false := by
  simp only [contains, if_neg hx]

theorem contains_of_valuation_lt {g : Generator} (slots : Slots) {x : UInt64} (hx : x ≠ 0)
    (xs : WordVec) (hlt : r.valuation x < r.valuation g.lead) :
    contains r (some g :: slots) (x :: xs) = false := by
  have hlt : (r.split x).1 < (r.split g.lead).1 := hlt
  simp only [contains, if_neg hx, if_pos hlt]

/-- Where the stored lead divides, the test goes on with a vector that the odd
part of the lead takes to the resolvent. -/
theorem exists_contains_eq {g : Generator} {slots : Slots} (hg : g.Fits r slots.length)
    {x : UInt64} (hx : x ≠ 0) {xs : WordVec} (hlen : xs.length = slots.length)
    (hle : r.valuation g.lead ≤ r.valuation x) :
    ∃ ys : WordVec, contains r (some g :: slots) (x :: xs) = contains r slots ys ∧
      ys.length = slots.length ∧ r.ReducedVec ys ∧
      r.resolvent g.lead g.rest x xs = r.scale ys (r.split g.lead).2 := by
  obtain ⟨-, hodd, -⟩ := r.split_spec hg.value_ne_zero
  obtain ⟨u, hu, hinv⟩ := r.inverse_of_odd hodd
  have hnot : ¬(r.split x).1 < (r.split g.lead).1 := Nat.not_lt_of_le hle
  let m := r.mul (r.pow2 (((r.split x).1 : Int) - (r.split g.lead).1)) (r.split x).2
  have hrest : xs.length = g.rest.length := hlen.trans hg.length_rest.symm
  have hys : (r.combine 1 xs (r.mul m u) g.rest).length = slots.length := by
    simp [hlen, hg.length_rest]
  refine ⟨r.combine 1 xs (r.mul m u) g.rest, ?_, hys, r.reducedVec_combine _ _ _ _, ?_⟩
  · simp only [contains, if_neg hx, if_neg hnot, hu]
    rfl
  · have hlen' : (r.resolvent g.lead g.rest x xs).length = slots.length := by
      simp [WordRing.resolvent, hlen, hg.length_rest]
    refine r.coords_inj hlen' ((r.length_scale _ _).trans hys) (r.reducedVec_combine _ _ _ _)
      (r.reducedVec_scale _ _) ?_
    funext i
    change r.value ((r.combine (r.split g.lead).2 xs m g.rest).getD i 0) =
      r.value ((r.scale (r.combine 1 xs (r.mul m u) g.rest) (r.split g.lead).2).getD i 0)
    rw [r.value_getD_scale, r.value_getD_combine _ _ hrest, r.value_getD_combine _ _ hrest,
      r.value_mul m u, WordRing.value_one]
    linear_combination r.value m * r.value (g.rest.getD i 0) * hinv

theorem coordsFrom_scale (j : ℕ) (v : WordVec) (c : UInt64) :
    r.coordsFrom n j (r.scale v c) = r.value c • r.coordsFrom n j v := by
  funext i
  rw [Pi.smul_apply, smul_eq_mul, WordRing.coordsFrom_apply, WordRing.coordsFrom_apply]
  split_ifs
  · rw [mul_zero]
  · rw [r.value_getD_scale, mul_comm]

/-- A vector that the test accepts is in the span. -/
theorem mem_span_of_contains {slots : Slots} (hs : slots.Fits r) {v : WordVec}
    (hlen : v.length = slots.length) (h : contains r slots v = true) (j : ℕ) :
    r.coordsFrom n j v ∈ r.span n (vectorsFrom j slots) := by
  induction slots generalizing v j with
  | nil =>
      obtain rfl : v = [] := List.length_eq_zero_iff.mp hlen
      rw [WordRing.coordsFrom_nil]
      exact Submodule.zero_mem _
  | cons slot slots ih =>
      cases v with
      | nil => cases hlen
      | cons x xs =>
          have hxs : xs.length = slots.length := Nat.succ.inj hlen
          by_cases hx : x = 0
          · subst hx
            rw [contains_zero_cons] at h
            rw [WordRing.coordsFrom_zero_cons]
            have hmem := ih hs.2 hxs h (j + 1)
            cases slot with
            | none => exact hmem
            | some g =>
                rw [span_vectorsFrom_some]
                exact Submodule.mem_sup_right hmem
          · cases slot with
            | none =>
                rw [contains_none_cons slots hx] at h
                cases h
            | some g =>
                have hg := hs.1 g rfl
                rcases Nat.lt_or_ge (r.valuation x) (r.valuation g.lead) with hlt | hle
                · rw [contains_of_valuation_lt slots hx xs hlt] at h
                  cases h
                · obtain ⟨ys, heq, hys, -, hres⟩ := exists_contains_eq hg hx hxs hle
                  refine mem_span_of_resolvent_mem hg hxs hle ?_
                  rw [hres, coordsFrom_scale]
                  exact Submodule.smul_mem _ _ (ih hs.2 hys (heq ▸ h) (j + 1))

theorem scale_one {v : WordVec} (hv : r.ReducedVec v) : r.scale v 1 = v := by
  refine r.coords_inj (r.length_scale v 1) rfl (r.reducedVec_scale v 1) hv ?_
  rw [r.coords_scale, WordRing.value_one, one_smul]

/-- The test accepts a vector exactly if inserting it takes no slot, as long as
odd factors of leads meet saturated slots only. -/
theorem contains_iff_of_inserts {slots slots' : Slots} {v : WordVec} {b : Bool}
    (h : Inserts r slots v b slots') (hs : slots.Fits r) {j : ℕ} (hlen : j + slots.length = n)
    (hodd : r.SaturatedBehindOdd n (vectorsFrom j slots)) :
    contains r slots v = true ↔ b = false := by
  induction slots generalizing v b slots' j with
  | nil =>
      cases h
      simp [contains, WordVec.isZero]
  | cons slot slots ih =>
      have hbehind : j + 1 + slots.length = n := by
        rw [← hlen, List.length_cons]
        omega
      cases h with
      | skip _ hi =>
          rw [contains_zero_cons]
          cases slot with
          | none => exact ih hi hs.2 hbehind hodd
          | some g => exact ih hi hs.2 hbehind hodd.2
      | settle hx _ _ => simp [contains_none_cons slots hx.lead_ne_zero]
      | front hx _ _ => simp [contains_none_cons slots hx.lead_ne_zero]
      | evict hx _ hlt _ _ => simp [contains_of_valuation_lt slots hx.lead_ne_zero _ hlt]
      | keep hx hg hle hi =>
          obtain ⟨ys, heq, hys, hred, hres⟩ :=
            exists_contains_eq hg hx.lead_ne_zero hx.length_rest hle
          obtain ⟨hone | hsat, hodd⟩ := hodd
          · rw [WordVec.leadEntry_replicate_append j hg.lead_ne_zero] at hone
            rw [hone, scale_one hred] at hres
            rw [heq, ← hres]
            exact ih hi hs.2 hbehind hodd
          · -- in a span an odd factor is invisible
            have hys := inserts_insert hs.2 hys hred
            have hunit := r.isUnit_oddPart hg.value_ne_zero
            rw [heq, ih hys hs.2 hbehind hodd, hys.eq_false_iff_mem hs.2 hbehind hsat,
              hi.eq_false_iff_mem hs.2 hbehind hsat, hres, coordsFrom_scale,
              Submodule.smul_mem_iff_of_isUnit _ hunit]

end Slots

namespace GeneratorSet
variable {r : WordRing} {n : ℕ}

/-- What the membership test accepts is in the span, and so is what an
insertion finds nothing new in. The two decide alike on every set in which the
vectors behind a lead with an odd factor are saturated. -/
theorem contains_iff_insert_false {vs : List WordVec} {s : GeneratorSet} (h : Built r n vs s)
    {v : WordVec} (hlen : v.length = n) (hred : r.ReducedVec v) :
    ∃ b s', s.insert v = .ok (b, s') ∧
      (s.contains v = true → r.coords n v ∈ r.span n s.vectors) ∧
      (b = false → r.coords n v ∈ r.span n s.vectors) ∧
      (r.SaturatedBehindOdd n s.vectors → (s.contains v = true ↔ b = false)) := by
  have hs := h.fits
  have hslots : v.length = s.slots.length := hlen.trans hs.length_slots.symm
  have hcontains : s.contains v = Slots.contains r s.slots v := by
    rw [contains, dim, hslots, hs.ring_eq, beq_self_eq_true, Bool.true_and]
  obtain ⟨b, s', he, -, hi⟩ := hs.insert_eq hlen hred
  rw [hcontains]
  refine ⟨b, s', he, ?_, ?_, ?_⟩
  · exact fun hv => Slots.mem_span_of_contains hs.slots_fit hslots hv 0
  · exact fun hb => hi.mem_span hb 0
  · exact Slots.contains_iff_of_inserts hi hs.slots_fit (by rw [hs.length_slots, Nat.zero_add])

/-- Modulo 8, `(0, 4, 1)` stands in front of `(0, 0, 4)` without its companion
`(0, 0, 2)`. Both leads are powers of two, and the two walks agree. -/
theorem contains_iff_insert_false_of_front : ∃ (r : WordRing) (s s' : GeneratorSet),
    r.width = 3 ∧ Built r 3 [[0, 0, 4], [0, 4, 1]] s ∧ r.SaturatedBehindOdd 3 s.vectors ∧
      s.contains [0, 4, 3] = false ∧ s.insert [0, 4, 3] = .ok (true, s') := by
  let r := WordRing.ofBits 3 (by decide) (by decide)
  let s : GeneratorSet := ⟨r, [none, some ⟨4, [1]⟩, some ⟨4, []⟩]⟩
  have h₁ : (empty r 3).insert [0, 0, 4] = .ok (true, ⟨r, [none, none, some ⟨4, []⟩]⟩) := by
    decide +kernel
  have h₂ : GeneratorSet.insert ⟨r, [none, none, some ⟨4, []⟩]⟩ [0, 4, 1] = .ok (true, s) := by
    decide +kernel
  have hb : Built r 3 [[0, 0, 4], [0, 4, 1]] s :=
    (Built.empty.insert (by decide) (by decide) h₁).insert (by decide) (by decide) h₂
  have hpower : (r.split 4).2 = 1 := by decide +kernel
  have hodd : r.SaturatedBehindOdd 3 s.vectors := ⟨.inl hpower, .inl hpower, trivial⟩
  have hcontains : s.contains [0, 4, 3] = false := by decide +kernel
  obtain ⟨b, s', he, -, -, hiff⟩ :=
    contains_iff_insert_false hb (v := [0, 4, 3]) (by decide) (by decide)
  obtain rfl : b = true := by simpa [hcontains] using hiff hodd
  exact ⟨r, s, s', rfl, hb, hodd, hcontains, he⟩

/-- Modulo 8, the lead 3 stands in front of `(0, 4, 1)`, whose companion
`(0, 0, 2)` is missing. An insertion reduces `(3, 4, 3)` to zero, and the
membership test does not. -/
theorem contains_disagrees_with_insert : ∃ (r : WordRing) (s : GeneratorSet), r.width = 3 ∧
    Built r 3 [[0, 0, 4], [0, 4, 1], [3, 0, 0]] s ∧ r.ReducedVec [3, 4, 3] ∧
      s.insert [3, 4, 3] = .ok (false, s) ∧ s.contains [3, 4, 3] = false := by
  let r := WordRing.ofBits 3 (by decide) (by decide)
  have h₁ : (empty r 3).insert [0, 0, 4] = .ok (true, ⟨r, [none, none, some ⟨4, []⟩]⟩) := by
    decide +kernel
  have h₂ : GeneratorSet.insert ⟨r, [none, none, some ⟨4, []⟩]⟩ [0, 4, 1] =
      .ok (true, ⟨r, [none, some ⟨4, [1]⟩, some ⟨4, []⟩]⟩) := by
    decide +kernel
  have h₃ : GeneratorSet.insert ⟨r, [none, some ⟨4, [1]⟩, some ⟨4, []⟩]⟩ [3, 0, 0] =
      .ok (true, ⟨r, [some ⟨3, [0, 0]⟩, some ⟨4, [1]⟩, some ⟨4, []⟩]⟩) := by
    decide +kernel
  have hb : Built r 3 [[0, 0, 4], [0, 4, 1], [3, 0, 0]]
      ⟨r, [some ⟨3, [0, 0]⟩, some ⟨4, [1]⟩, some ⟨4, []⟩]⟩ :=
    ((Built.empty.insert (by decide) (by decide) h₁).insert (by decide) (by decide) h₂).insert
      (by decide) (by decide) h₃
  exact ⟨r, _, rfl, hb, by decide, by decide +kernel, by decide +kernel⟩

end GeneratorSet

end AffineRelations
