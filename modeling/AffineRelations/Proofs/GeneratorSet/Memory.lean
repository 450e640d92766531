import AffineRelations.Proofs.GeneratorSet.Membership
import AffineRelations.Proofs.GeneratorSet.Progress

/-!
# What a set remembers of an inserted vector

A vector that has been inserted need not be stored: of two vectors with leads in
one column only one stays, and what is left of the other is sent on. Still a
second insertion of the vector takes the same way and finds nothing new.

A multiple of the vector takes another way. The walk of the multiple can differ
by companions of the stored vectors that it meets, even if the factor is odd. So
all odd multiples are remembered if those companions are generated. Nothing less
will do for all vectors: the multiple of a stored vector by `1 + 2^(w-k)`, where
`k` is the valuation of its lead, is the vector plus its companion.
-/
namespace AffineRelations

namespace WordRing
variable (r : WordRing) {n : ℕ}

theorem Saturated.behindOdd {vs : List WordVec} (h : r.Saturated n vs) :
    r.SaturatedBehindOdd n vs := by
  induction vs with
  | nil => exact trivial
  | cons v vs ih => exact ⟨.inr h.2, ih h.2⟩

/-- The least odd factor that adds its companion to a vector with the lead `x`. -/
def companionFactor (x : UInt64) : UInt64 := 1 + r.pow2 ((r.width - r.valuation x : ℕ) : Int)

theorem value_companionFactor (x : UInt64) :
    r.value (r.companionFactor x) = 1 + 2 ^ (r.width - r.valuation x) := by
  rw [companionFactor, value_word_add, value_one, value_pow2]

theorem companionFactor_odd {x : UInt64} (hx : r.value x ≠ 0) :
    (r.companionFactor x).toNat % 2 = 1 := by
  have hlt := r.valuation_lt_iff.mpr hx
  have heven : 2 ∣ (r.pow2 ((r.width - r.valuation x : ℕ) : Int)).toNat := by
    by_cases hk : r.width - r.valuation x < r.width
    · rw [r.toNat_pow2 hk]
      exact dvd_pow_self 2 (by omega)
    · change 2 ∣ (if r.width - r.valuation x < r.width then
        (1 : UInt64) <<< UInt64.ofNat (r.width - r.valuation x) else 0).toNat
      rw [if_neg hk]
      exact dvd_zero 2
  rw [companionFactor, UInt64.toNat_add, Nat.mod_mod_of_dvd _ (by decide), UInt64.toNat_one]
  omega

/-- The factor does not show in the lead. -/
theorem mul_companionFactor {x : UInt64} (hx : r.Reduced x) :
    r.mul x (r.companionFactor x) = x := by
  have hkill : r.value x * 2 ^ (r.width - r.valuation x) = 0 := by
    rw [r.value_eq_two_pow_mul x, mul_right_comm, ← pow_add, ← valuation,
      Nat.add_sub_cancel' (r.valuation_le x), two_pow_width_eq_zero, zero_mul]
  refine r.value_inj (r.reduced_residue _) hx ?_
  rw [value_mul, value_companionFactor, mul_add, mul_one, hkill, add_zero]

end WordRing

namespace Slots
variable {r : WordRing} {n : ℕ} {slots slots' : Slots} {v : WordVec} {b : Bool}

/-- A derivation ends where the insertion does. -/
theorem Inserts.insert_eq (h : Inserts r slots v b slots') : insert r slots v = (b, slots') := by
  induction h with
  | nil => simp only [insert]
  | skip _ _ ih => rw [insert_zero_cons, ih]
  | settle hx hnone _ ih =>
      rw [insert, if_neg hx.lead_ne_zero]
      simp only [hnone, if_true, ih]
  | front hx hsome _ =>
      rw [insert, if_neg hx.lead_ne_zero]
      simp [hsome]
  | evict hx _ hlt _ _ ih₁ ih₂ =>
      rw [insert, if_neg hx.lead_ne_zero]
      simp only [hlt, if_true, ih₁, ih₂]
  | keep hx _ hle _ ih =>
      rw [insert, if_neg hx.lead_ne_zero]
      simp only [Nat.not_lt_of_le hle, if_false, ih]

theorem inserts_zeros (hs : slots.Fits r) :
    Inserts r slots (List.replicate slots.length 0) false slots := by
  induction slots with
  | nil => exact .nil
  | cons slot slots ih => exact .skip hs.1 (ih hs.2)

/-- A vector leaves nothing of itself. -/
theorem resolvent_self {g : Generator} {k : ℕ} (hg : g.Fits r k) :
    r.resolvent g.lead g.rest g.lead g.rest = List.replicate k 0 := by
  have hzeros : r.ReducedVec (List.replicate k 0) := by
    intro y hy
    rw [List.eq_of_mem_replicate hy]
    exact r.reduced_zero
  refine r.coords_inj (n := k) (by simp [WordRing.resolvent, hg.length_rest]) (by simp)
    (r.reducedVec_combine _ _ _ _) hzeros ?_
  funext i
  rw [WordRing.coords, WordRing.resolvent, r.value_getD_combine _ _ rfl, r.value_mul,
    r.value_pow2_sub le_rfl, Nat.sub_self, pow_zero, one_mul, sub_self]
  simp [WordRing.coords]

/-- A stored vector is inserted again without effect. -/
theorem inserts_stored {g : Generator} (hg : g.Fits r slots.length) (hs : slots.Fits r) :
    Inserts r (some g :: slots) (g.lead :: g.rest) false (some g :: slots) := by
  refine .keep hg hg le_rfl ?_
  rw [resolvent_self hg]
  exact inserts_zeros hs

/-- A second insertion follows the first and changes nothing. -/
theorem Inserts.again (h : Inserts r slots v b slots') : Inserts r slots' v false slots' := by
  induction h with
  | nil => exact .nil
  | skip hg hi ih => exact .skip (hi.length_eq ▸ hg) ih
  | settle hx _ hi _ => exact inserts_stored (hi.length_eq ▸ hx) hi.fits
  | front hx _ hs => exact inserts_stored hx hs
  | evict hx _ _ hi₁ hi₂ _ _ =>
      exact inserts_stored ((hi₂.length_eq.trans hi₁.length_eq).symm ▸ hx) hi₂.fits
  | keep hx hg hle hi ih => exact .keep (hi.length_eq ▸ hx) (hi.length_eq ▸ hg) hle ih

/-- If the companions are generated, every multiple of an inserted vector is
remembered. -/
theorem Inserts.scale_again (h : Inserts r slots v b slots') (hv : v.length = slots.length) {j : ℕ}
    (hlen : j + slots.length = n) (hsat : r.Saturated n (vectorsFrom j slots')) (u : UInt64) :
    contains r slots' (r.scale v u) = true ∧ insert r slots' (r.scale v u) = (false, slots') := by
  have hlen' : j + slots'.length = n := by rw [h.length_eq, hlen]
  have hi := inserts_insert h.fits ((r.length_scale v u).trans (hv.trans h.length_eq.symm))
    (r.reducedVec_scale v u)
  have hmem : r.coordsFrom n j (r.scale v u) ∈ r.span n (vectorsFrom j slots') := by
    rw [coordsFrom_scale, h.span_eq j]
    exact Submodule.smul_mem _ _
      (Submodule.mem_sup_right (Submodule.mem_span_singleton_self _))
  have hflag := hi.eq_false_of_mem h.fits hlen' hsat hmem
  refine ⟨(contains_iff_of_inserts hi h.fits hlen' (hsat.behindOdd r)).mpr hflag, ?_⟩
  exact Prod.ext hflag (hi.eq_of_false hflag)

/-- If the test accepts a stored vector plus its companion, the vectors behind
it generate the companion. -/
theorem companion_mem_of_contains {g : Generator} (hg : g.Fits r slots.length)
    (hs : slots.Fits r) (j : ℕ)
    (h : contains r (some g :: slots)
      (r.scale (g.lead :: g.rest) (r.companionFactor g.lead)) = true) :
    r.coordsFrom n (j + 1) (r.companion g.lead g.rest) ∈ r.span n (vectorsFrom (j + 1) slots) := by
  have hscale : r.scale (g.lead :: g.rest) (r.companionFactor g.lead) =
      g.lead :: r.scale g.rest (r.companionFactor g.lead) := by
    rw [WordRing.scale, List.map_cons, r.mul_companionFactor hg.lead_reduced]
    rfl
  have hlen : (r.scale g.rest (r.companionFactor g.lead)).length = slots.length := by
    rw [r.length_scale, hg.length_rest]
  rw [hscale] at h
  obtain ⟨ys, heq, hys, -, hres⟩ := exists_contains_eq hg hg.lead_ne_zero hlen le_rfl
  have hmem := mem_span_of_contains (n := n) hs hys (heq ▸ h) (j + 1)
  have hunit := r.isUnit_oddPart hg.value_ne_zero
  rw [← Submodule.smul_mem_iff_of_isUnit _ hunit, ← coordsFrom_scale, ← hres,
    r.coordsFrom_resolvent j (hg.length_rest.trans hlen.symm) le_rfl, ← hscale, coordsFrom_scale,
    r.value_companionFactor, Nat.sub_self, pow_zero, one_mul, ← smul_sub, add_smul, one_smul,
    add_sub_cancel_left, Submodule.smul_mem_iff_of_isUnit _ hunit, ← r.coordsFrom_companion] at hmem
  exact hmem

/-- Slots are saturated if the test accepts each stored vector plus its
companion. -/
theorem saturated_of_contains_companions (hs : slots.Fits r) (j : ℕ)
    (h : ∀ (i : ℕ) (g : Generator), slots[i]? = some (some g) →
      contains r (slots.drop i)
        (r.scale (g.lead :: g.rest) (r.companionFactor g.lead)) = true) :
    r.Saturated n (vectorsFrom j slots) := by
  induction slots generalizing j with
  | nil => exact trivial
  | cons slot slots ih =>
      have hsat := ih hs.2 (j + 1) fun i g hi => h (i + 1) g hi
      cases slot with
      | none => exact hsat
      | some g =>
          have hg := hs.1 g rfl
          rw [saturated_vectorsFrom_some hg.lead_ne_zero]
          exact ⟨companion_mem_of_contains hg hs.2 j (h 0 g rfl), hsat⟩

theorem contains_replicate_append {j : ℕ} (hj : j ≤ slots.length) (v : WordVec) :
    contains r slots (List.replicate j 0 ++ v) = contains r (slots.drop j) v := by
  induction j generalizing slots with
  | zero => rfl
  | succ j ih =>
      cases slots with
      | nil => cases hj
      | cons slot slots =>
          rw [List.replicate_succ, List.cons_append, contains_zero_cons,
            ih (Nat.le_of_succ_le_succ hj)]
          rfl

theorem Inserts.drop {j : ℕ} (h : Inserts r slots (List.replicate j 0 ++ v) b slots') :
    Inserts r (slots.drop j) v b (slots'.drop j) := by
  induction j generalizing slots slots' with
  | zero => exact h
  | succ j ih =>
      rw [List.replicate_succ, List.cons_append] at h
      cases h with
      | skip _ hi => exact ih hi
      | settle hx => exact (hx.lead_ne_zero rfl).elim
      | front hx => exact (hx.lead_ne_zero rfl).elim
      | evict hx => exact (hx.lead_ne_zero rfl).elim
      | keep hx => exact (hx.lead_ne_zero rfl).elim

end Slots

namespace GeneratorSet
variable {r : WordRing} {n : ℕ}

/-- The stored vectors that a reduction of `v` can meet: their leads do not stand
before the lead of `v`. -/
def reducers (s : GeneratorSet) (v : WordVec) : List WordVec :=
  s.vectors.filter fun g => v.leadIndex?.any fun j => g.leadsFrom j

/-- Where the zeros of a vector end, the vectors that its reduction can meet
begin. -/
theorem exists_reducers_eq (r : WordRing) {v : WordVec} (hlen : v.length = n) :
    ∃ j w, j ≤ n ∧ v = List.replicate j 0 ++ w ∧
      ∀ s : GeneratorSet, s.Fits r n → s.reducers v = Slots.vectorsFrom j (s.slots.drop j) := by
  cases hv : v.leadIndex? with
  | none =>
      refine ⟨n, [], le_rfl, ?_, fun s hs => ?_⟩
      · rw [List.append_nil, ← hlen]
        exact WordVec.eq_replicate_of_leadIndex? hv
      · simp [reducers, hv, ← hs.length_slots, Slots.vectorsFrom]
  | some j =>
      obtain ⟨x, xs, -, rfl⟩ := WordVec.exists_eq_of_leadIndex? hv
      have hj : j ≤ n := by
        rw [← hlen]
        simp
      refine ⟨j, x :: xs, hj, rfl, fun s hs => ?_⟩
      rw [← Slots.filter_leadsFrom hs.slots_fit.aligned (hs.length_slots ▸ hj), reducers, hv]
      rfl

section
variable {s : GeneratorSet} (hs : s.Fits r n)
include hs

theorem Fits.contains_eq {j : ℕ} {w : WordVec} (hlen : (List.replicate j 0 ++ w).length = n) :
    s.contains (List.replicate j 0 ++ w) = Slots.contains r (s.slots.drop j) w := by
  have hj : j ≤ s.slots.length := by
    rw [hs.length_slots, ← hlen]
    simp
  rw [contains, dim, hlen, hs.length_slots, hs.ring_eq, beq_self_eq_true, Bool.true_and,
    Slots.contains_replicate_append hj]

theorem Fits.insert_eq_self {v : WordVec} (hlen : v.length = n)
    (h : Slots.insert r s.slots v = (false, s.slots)) : s.insert v = .ok (false, s) := by
  obtain ⟨rfl, hslots, -⟩ := hs
  rw [insert, dim, if_pos (hlen.trans hslots.symm), h]

end

/-- A vector that has just been inserted is inserted again without effect. If
odd factors of leads meet only companions that are generated, the membership
test accepts it. If all companions among the vectors that its reduction can meet
are generated, the test accepts each of its multiples, and inserting one has no
effect. Conversely these companions are generated if the test accepts all odd
multiples of the vectors there. -/
theorem insert_remembered {vs : List WordVec} {s : GeneratorSet} (h : Built r n vs s) {v : WordVec}
    (hlen : v.length = n) (hred : r.ReducedVec v) :
    ∃ b s', s.insert v = .ok (b, s') ∧ s'.insert v = .ok (false, s') ∧
      (r.SaturatedBehindOdd n (s'.reducers v) → s'.contains v = true) ∧
      (r.Saturated n (s'.reducers v) → ∀ u : UInt64, s'.contains (r.scale v u) = true ∧
        s'.insert (r.scale v u) = .ok (false, s')) ∧
      ((∀ g ∈ s'.reducers v, ∀ u : UInt64, u.toNat % 2 = 1 →
        s'.contains (r.scale g u) = true) → r.Saturated n (s'.reducers v)) := by
  obtain ⟨b, s', he, hs', hi⟩ := h.fits.insert_eq hlen hred
  obtain ⟨j, w, hj, rfl, hreducers⟩ := exists_reducers_eq r hlen
  have hj' : j ≤ s'.slots.length := hs'.length_slots ▸ hj
  have hdrop := hi.drop
  have hback : j + (s'.slots.drop j).length = n := by
    rw [List.length_drop, hs'.length_slots, Nat.add_sub_cancel' hj]
  refine ⟨b, s', he, hs'.insert_eq_self hlen hi.again.insert_eq, ?_⟩
  rw [hreducers s' hs']
  refine ⟨fun hodd => ?_, fun hsat u => ?_, fun haccept => ?_⟩
  · rw [hs'.contains_eq hlen]
    exact (Slots.contains_iff_of_inserts hdrop.again hdrop.fits hback hodd).mpr rfl
  · have hw : w.length = (s.slots.drop j).length := by
      rw [List.length_drop, h.fits.length_slots, ← hlen]
      simp
    have hscaled : (List.replicate j 0 ++ r.scale w u).length = n := by
      rw [← hlen]
      simp
    obtain ⟨haccept, hsame⟩ := hdrop.scale_again hw (hdrop.length_eq ▸ hback) hsat u
    rw [r.scale_replicate_append, hs'.contains_eq hscaled]
    refine ⟨haccept, hs'.insert_eq_self hscaled ?_⟩
    rw [Slots.insert_replicate_append r hj', hsame, List.take_append_drop]
  · refine Slots.saturated_of_contains_companions hdrop.fits j fun i g hg => ?_
    have hmem : g.vectorAt (j + i) ∈ Slots.vectorsFrom j (s'.slots.drop j) :=
      Slots.mem_vectorsFrom.mpr ⟨i, g, hg, rfl⟩
    obtain ⟨hsize, hreduced, -⟩ := Slots.vectorsFrom_shape hdrop.fits hmem
    have hlead := (hdrop.fits.aligned.getElem? hg).1
    have hvalue : r.value g.lead ≠ 0 := fun h₀ => hlead
      ((r.value_eq_zero_iff (hreduced g.lead (by simp [Generator.vectorAt]))).mp h₀)
    have hscaled : (List.replicate (j + i) 0 ++
        r.scale (g.lead :: g.rest) (r.companionFactor g.lead)).length = n := by
      rw [← r.scale_replicate_append, r.length_scale]
      exact hsize.trans hback
    rw [List.drop_drop, ← hs'.contains_eq hscaled, ← r.scale_replicate_append]
    exact haccept _ hmem _ (r.companionFactor_odd hvalue)

/-- Modulo 8, `(4, 1)` is not stored behind `(2, 1)` and its companion `(0, 4)`,
but `(0, 7)` is, and the set is saturated. All multiples are remembered. -/
theorem insert_remembered_of_resolvent : ∃ (r : WordRing) (s s' : GeneratorSet), r.width = 3 ∧
    Built r 2 [[2, 1]] s ∧ s.insert [4, 1] = .ok (true, s') ∧ s'.vectors = [[2, 1], [0, 7]] ∧
      s'.insert [4, 1] = .ok (false, s') ∧ r.Saturated 2 (s'.reducers [4, 1]) ∧
      ∀ u : UInt64, s'.contains (r.scale [4, 1] u) = true ∧
        s'.insert (r.scale [4, 1] u) = .ok (false, s') := by
  let r := WordRing.ofBits 3 (by decide) (by decide)
  have h₁ : (empty r 2).insert [2, 1] = .ok (true, ⟨r, [some ⟨2, [1]⟩, some ⟨4, []⟩]⟩) := by
    decide +kernel
  have h₂ : GeneratorSet.insert ⟨r, [some ⟨2, [1]⟩, some ⟨4, []⟩]⟩ [4, 1] =
      .ok (true, ⟨r, [some ⟨2, [1]⟩, some ⟨7, []⟩]⟩) := by
    decide +kernel
  have hb : Built r 2 [[2, 1]] ⟨r, [some ⟨2, [1]⟩, some ⟨4, []⟩]⟩ :=
    Built.empty.insert (by decide) (by decide) h₁
  have hfirst : r.coords 2 (r.scale [2, 1] (r.pow2 (r.width - r.valuation 2 : ℕ))) =
      (4 : r.Elem) • r.coords 2 [0, 7] := by decide +kernel
  have hsecond : r.coords 2 (r.scale [0, 7] (r.pow2 (r.width - r.valuation 7 : ℕ))) = 0 := by
    decide +kernel
  have hstored : r.coords 2 [0, 7] ∈ r.span 2 [[0, 7]] :=
    Submodule.subset_span ⟨_, List.mem_singleton_self _, rfl⟩
  have hsat : r.Saturated 2 [[2, 1], [0, 7]] :=
    ⟨hfirst ▸ Submodule.smul_mem _ _ hstored, hsecond ▸ Submodule.zero_mem _, trivial⟩
  obtain ⟨b, s', he, hagain, -, hmultiples, -⟩ :=
    insert_remembered hb (v := [4, 1]) (by decide) (by decide)
  cases h₂.symm.trans he
  exact ⟨r, _, _, rfl, hb, h₂, rfl, hagain, hsat, hmultiples hsat⟩

/-- Modulo 8, the companion `(0, 0, 2)` of `(0, 4, 1)` is missing behind the lead 3.
Inserting `(3, 4, 3)` changes nothing, and then the membership test does not
accept it, and inserting its triple changes the set. -/
theorem insert_forgets_multiple : ∃ (r : WordRing) (s s' : GeneratorSet), r.width = 3 ∧
    Built r 3 [[0, 0, 4], [0, 4, 1], [3, 0, 0]] s ∧ r.ReducedVec [3, 4, 3] ∧
      s.insert [3, 4, 3] = .ok (false, s) ∧ s.contains [3, 4, 3] = false ∧
      r.scale [3, 4, 3] 3 = [1, 4, 1] ∧ s.insert [1, 4, 1] = .ok (true, s') := by
  let r := WordRing.ofBits 3 (by decide) (by decide)
  have h₁ : (empty r 3).insert [0, 0, 4] = .ok (true, ⟨r, [none, none, some ⟨4, []⟩]⟩) := by
    decide +kernel
  have h₂ : GeneratorSet.insert ⟨r, [none, none, some ⟨4, []⟩]⟩ [0, 4, 1] =
      .ok (true, ⟨r, [none, some ⟨4, [1]⟩, some ⟨4, []⟩]⟩) := by
    decide +kernel
  have h₃ : GeneratorSet.insert ⟨r, [none, some ⟨4, [1]⟩, some ⟨4, []⟩]⟩ [3, 0, 0] =
      .ok (true, ⟨r, [some ⟨3, [0, 0]⟩, some ⟨4, [1]⟩, some ⟨4, []⟩]⟩) := by
    decide +kernel
  have hb : Built r 3 [[0, 0, 4], [0, 4, 1], [3, 0, 0]]
      ⟨r, [some ⟨3, [0, 0]⟩, some ⟨4, [1]⟩, some ⟨4, []⟩]⟩ :=
    ((Built.empty.insert (by decide) (by decide) h₁).insert (by decide) (by decide) h₂).insert
      (by decide) (by decide) h₃
  exact ⟨r, _, ⟨r, [some ⟨3, [0, 0]⟩, some ⟨4, [1]⟩, some ⟨2, []⟩]⟩, rfl, hb, by decide,
    by decide +kernel, by decide +kernel, by decide +kernel, by decide +kernel⟩

end GeneratorSet

end AffineRelations
