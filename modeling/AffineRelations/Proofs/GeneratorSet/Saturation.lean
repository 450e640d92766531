import AffineRelations.Proofs.GeneratorSet.Stored

/-!
# Saturated generator sets

A multiple of a stored vector can lose its lead and still not be zero. The
least such multiple by a power of two is the vector's companion, and all others
are multiples of it. A set is saturated if the companion of each stored vector
is generated by the vectors behind it.

On a saturated set the walk of an insertion decides membership in the span, and
on no other set does it: a vector that settles in front of others comes without
its companion, and if the others do not generate the companion, inserting it
later takes a slot although the span stays the same.
-/
namespace AffineRelations

namespace WordVec

theorem leadEntry_replicate_append (j : ℕ) {x : UInt64} (hx : x ≠ 0) (xs : WordVec) :
    leadEntry (List.replicate j 0 ++ x :: xs) = x := by
  simp [leadEntry, List.find?_append, hx]

end WordVec

namespace WordRing
variable (r : WordRing) {n : ℕ}

/-- What `2^k` takes to zero is a multiple of `2^(w-k)`. -/
theorem two_pow_dvd_of_mul_eq_zero {k : ℕ} (hk : k ≤ r.width) {a : r.Elem}
    (h : a * 2 ^ k = 0) : 2 ^ (r.width - k) ∣ a := by
  have hcast : ((a.val * 2 ^ k : ℕ) : r.Elem) = 0 := by
    rw [Nat.cast_mul, ZMod.natCast_zmod_val, Nat.cast_pow, Nat.cast_ofNat, h]
  have hdvd : 2 ^ (r.width - k) * 2 ^ k ∣ a.val * 2 ^ k := by
    rw [← pow_add, Nat.sub_add_cancel hk]
    exact (ZMod.natCast_eq_zero_iff _ _).mp hcast
  obtain ⟨c, hc⟩ := Nat.dvd_of_mul_dvd_mul_right (Nat.two_pow_pos k) hdvd
  refine ⟨c, ?_⟩
  rw [← ZMod.natCast_zmod_val a, hc, Nat.cast_mul, Nat.cast_pow, Nat.cast_ofNat]

theorem coordsFrom_lead {j : ℕ} (hj : j < n) (x : UInt64) (xs : WordVec) :
    r.coordsFrom n j (x :: xs) ⟨j, hj⟩ = r.value x := by
  simp [coordsFrom_apply]

theorem coordsFrom_eq_zero {i j : ℕ} (hi : i < n) (hij : i < j) (v : WordVec) :
    r.coordsFrom n j v ⟨i, hi⟩ = 0 := by
  simp [coordsFrom_apply, hij]

/-- The companion of each vector is generated by the vectors behind it. -/
def Saturated (n : ℕ) : List WordVec → Prop
  | [] => True
  | v :: vs => r.coords n (r.scale v (r.pow2 (r.width - r.valuation v.leadEntry : ℕ))) ∈
      r.span n vs ∧ Saturated n vs

end WordRing

namespace Slots
variable {r : WordRing} {n : ℕ}

theorem saturated_vectorsFrom_some {g : Generator} (hg : g.lead ≠ 0) (j : ℕ) (slots : Slots) :
    r.Saturated n (vectorsFrom j (some g :: slots)) ↔
      r.coordsFrom n (j + 1) (r.companion g.lead g.rest) ∈ r.span n (vectorsFrom (j + 1) slots) ∧
        r.Saturated n (vectorsFrom (j + 1) slots) := by
  rw [vectorsFrom, WordRing.Saturated, WordVec.leadEntry_replicate_append j hg,
    r.coords_scale, WordRing.value_pow2, r.coordsFrom_companion]
  rfl

/-- The span of the vectors from column `j` on vanishes before it. -/
theorem apply_eq_zero_of_mem_span {slots : Slots} (hs : slots.Fits r) {j : ℕ}
    {x : Fin n → r.Elem} (hx : x ∈ r.span n (vectorsFrom j slots)) {i : Fin n} (hi : (i : ℕ) < j) :
    x i = 0 := by
  have hle : r.span n (vectorsFrom j slots) ≤ LinearMap.ker (LinearMap.proj i) := by
    rw [WordRing.span, Submodule.span_le]
    rintro _ ⟨v, hv, rfl⟩
    obtain ⟨-, -, hzero⟩ := vectorsFrom_shape hs hv
    change r.value (v.getD i 0) = 0
    rw [hzero i hi, WordRing.value_zero]
  exact hle hx

/-- What the vectors from a lead on generate is a multiple of the first of
them in the lead's column. -/
theorem exists_of_mem_span_some {g : Generator} {slots : Slots} (hs : slots.Fits r) {j : ℕ}
    (hj : j < n) {x : Fin n → r.Elem} (hx : x ∈ r.span n (vectorsFrom j (some g :: slots))) :
    ∃ a : r.Elem, x ⟨j, hj⟩ = a * r.value g.lead ∧
      x - a • r.coordsFrom n j (g.lead :: g.rest) ∈ r.span n (vectorsFrom (j + 1) slots) := by
  rw [span_vectorsFrom_some] at hx
  obtain ⟨y, hy, z, hz, rfl⟩ := Submodule.mem_sup.mp hx
  obtain ⟨a, rfl⟩ := Submodule.mem_span_singleton.mp hy
  refine ⟨a, ?_, by rwa [add_sub_cancel_left]⟩
  rw [Pi.add_apply, Pi.smul_apply, r.coordsFrom_lead hj, smul_eq_mul,
    apply_eq_zero_of_mem_span hs hz (Nat.lt_succ_self j), add_zero]

/-- A lead in the column of a vacant slot is out of reach of the vectors behind. -/
theorem notMem_span_of_vacant {slots : Slots} (hs : slots.Fits r) {j : ℕ} (hj : j < n)
    {x : UInt64} (hx : r.value x ≠ 0) (xs : WordVec) :
    r.coordsFrom n j (x :: xs) ∉ r.span n (vectorsFrom (j + 1) slots) := by
  intro hmem
  have hzero := apply_eq_zero_of_mem_span (i := ⟨j, hj⟩) hs hmem (Nat.lt_succ_self j)
  rw [r.coordsFrom_lead hj] at hzero
  exact hx hzero

/-- Multiples of a lead have at least its valuation. -/
theorem valuation_le_of_mem_span {g : Generator} {slots : Slots} (hs : slots.Fits r) {j : ℕ}
    (hj : j < n) {x : UInt64} {xs : WordVec}
    (hmem : r.coordsFrom n j (x :: xs) ∈ r.span n (vectorsFrom j (some g :: slots))) :
    r.valuation g.lead ≤ r.valuation x := by
  obtain ⟨a, ha, -⟩ := exists_of_mem_span_some hs hj hmem
  rw [r.coordsFrom_lead hj, r.value_eq_two_pow_mul g.lead] at ha
  rw [← r.two_pow_dvd_value_iff (r.valuation_le g.lead), ha]
  exact Dvd.dvd.mul_left (Dvd.intro _ rfl) a

/-- What the vectors from a lead on generate and is zero in the lead's column
is generated by those behind the lead, if they generate its companion. -/
theorem mem_span_behind {g : Generator} {slots : Slots} (hg : g.Fits r slots.length)
    (hs : slots.Fits r) {j : ℕ} (hj : j < n)
    (hcomp : r.coordsFrom n (j + 1) (r.companion g.lead g.rest) ∈
      r.span n (vectorsFrom (j + 1) slots))
    {x : Fin n → r.Elem} (hx : x ∈ r.span n (vectorsFrom j (some g :: slots)))
    (hzero : x ⟨j, hj⟩ = 0) : x ∈ r.span n (vectorsFrom (j + 1) slots) := by
  obtain ⟨a, ha, hrest⟩ := exists_of_mem_span_some hs hj hx
  have hkill : a * 2 ^ r.valuation g.lead = 0 := by
    rw [hzero, r.value_eq_two_pow_mul g.lead, ← mul_assoc] at ha
    exact (r.isUnit_oddPart hg.value_ne_zero).mul_left_eq_zero.mp ha.symm
  obtain ⟨c, rfl⟩ := r.two_pow_dvd_of_mul_eq_zero (r.valuation_le g.lead) hkill
  rw [r.coordsFrom_companion] at hcomp
  have hmultiple := Submodule.add_mem _ hrest (Submodule.smul_mem _ c hcomp)
  rwa [smul_smul, mul_comm c, sub_add_cancel] at hmultiple

/-- On saturated slots no insertion of a vector of the span takes a slot. -/
theorem Inserts.eq_false_of_mem {slots slots' : Slots} {v : WordVec} {b : Bool}
    (h : Inserts r slots v b slots') (hs : slots.Fits r) {j : ℕ} (hlen : j + slots.length = n)
    (hsat : r.Saturated n (vectorsFrom j slots))
    (hv : r.coordsFrom n j v ∈ r.span n (vectorsFrom j slots)) : b = false := by
  induction h generalizing j with
  | nil => rfl
  | @skip slot slots slots' xs b _ _ ih =>
      rw [List.length_cons] at hlen
      rw [WordRing.coordsFrom_zero_cons] at hv
      cases slot with
      | none => exact ih hs.2 (by omega) hsat hv
      | some g =>
          have hg := hs.1 g rfl
          obtain ⟨hcomp, hsat⟩ := (saturated_vectorsFrom_some hg.lead_ne_zero j slots).mp hsat
          have hj : j < n := by omega
          refine ih hs.2 (by omega) hsat (mem_span_behind hg hs.2 hj hcomp hv ?_)
          exact r.coordsFrom_eq_zero hj (Nat.lt_succ_self j) xs
  | settle hx _ _ _ =>
      rw [List.length_cons] at hlen
      exact (notMem_span_of_vacant hs.2 (by omega) hx.value_ne_zero _ hv).elim
  | front hx _ _ =>
      rw [List.length_cons] at hlen
      exact (notMem_span_of_vacant hs.2 (by omega) hx.value_ne_zero _ hv).elim
  | evict _ _ hlt _ _ _ _ =>
      rw [List.length_cons] at hlen
      exact (Nat.not_le_of_lt hlt (valuation_le_of_mem_span hs.2 (by omega) hv)).elim
  | @keep slots slots' g x xs b hx hg hle _ ih =>
      rw [List.length_cons] at hlen
      have hj : j < n := by omega
      obtain ⟨hcomp, hsat⟩ := (saturated_vectorsFrom_some hg.lead_ne_zero j slots).mp hsat
      have hlead : r.coordsFrom n j (g.lead :: g.rest) ∈
          r.span n (vectorsFrom j (some g :: slots)) := by
        rw [span_vectorsFrom_some]
        exact Submodule.mem_sup_left (Submodule.mem_span_singleton_self _)
      have hres : r.coordsFrom n (j + 1) (r.resolvent g.lead g.rest x xs) ∈
          r.span n (vectorsFrom j (some g :: slots)) := by
        rw [r.coordsFrom_resolvent j (hg.length_rest.trans hx.length_rest.symm) hle]
        exact Submodule.sub_mem _ (Submodule.smul_mem _ _ hv) (Submodule.smul_mem _ _ hlead)
      refine ih hs.2 (by omega) hsat (mem_span_behind hg hs.2 hj hcomp hres ?_)
      exact r.coordsFrom_eq_zero hj (Nat.lt_succ_self j) _

theorem Inserts.eq_false_iff_mem {slots slots' : Slots} {v : WordVec} {b : Bool}
    (h : Inserts r slots v b slots') (hs : slots.Fits r) {j : ℕ} (hlen : j + slots.length = n)
    (hsat : r.Saturated n (vectorsFrom j slots)) :
    b = false ↔ r.coordsFrom n j v ∈ r.span n (vectorsFrom j slots) :=
  ⟨fun hb => h.mem_span hb j, h.eq_false_of_mem hs hlen hsat⟩

/-- Slots on which no vector of the span takes a slot are saturated. -/
theorem saturated_of_insert_eq_false {slots : Slots} (hs : slots.Fits r) {j : ℕ}
    (hexact : ∀ v : WordVec, v.length = slots.length → r.ReducedVec v →
      r.coordsFrom n j v ∈ r.span n (vectorsFrom j slots) → (insert r slots v).1 = false) :
    r.Saturated n (vectorsFrom j slots) := by
  induction slots generalizing j with
  | nil => trivial
  | cons slot slots ih =>
      have hbehind (xs : WordVec) (hlen : xs.length = slots.length) (hred : r.ReducedVec xs)
          (hmem : r.coordsFrom n (j + 1) xs ∈ r.span n (vectorsFrom j (slot :: slots))) :
          (insert r slots xs).1 = false := by
        have hzero : r.ReducedVec (0 :: xs) :=
          List.forall_mem_cons.mpr ⟨r.reduced_zero, hred⟩
        have hflag := hexact (0 :: xs) (by simp [hlen]) hzero
          (by rwa [WordRing.coordsFrom_zero_cons])
        rwa [insert_zero_cons] at hflag
      cases slot with
      | none => exact ih hs.2 hbehind
      | some g =>
          have hg := hs.1 g rfl
          rw [span_vectorsFrom_some] at hbehind
          rw [saturated_vectorsFrom_some hg.lead_ne_zero]
          constructor
          · have hlen : (r.companion g.lead g.rest).length = slots.length := by
              rw [r.length_companion, hg.length_rest]
            have hred : r.ReducedVec (r.companion g.lead g.rest) := r.reducedVec_scale _ _
            refine (inserts_insert hs.2 hlen hred).mem_span (hbehind _ hlen hred ?_) (j + 1)
            rw [r.coordsFrom_companion]
            exact Submodule.smul_mem _ _
              (Submodule.mem_sup_left (Submodule.mem_span_singleton_self _))
          · exact ih hs.2 fun xs hlen hred hmem =>
              hbehind xs hlen hred (Submodule.mem_sup_right hmem)

end Slots

namespace GeneratorSet
variable {r : WordRing} {n : ℕ}

/-- The flag of an insertion says for every vector whether it is new to the
span, and so whether the span grows, exactly if the set is saturated. -/
theorem insert_decides_iff_saturated {vs : List WordVec} {s : GeneratorSet}
    (h : Built r n vs s) :
    (∀ v : WordVec, v.length = n → r.ReducedVec v → ∃ b s', s.insert v = .ok (b, s') ∧
      (b = true ↔ r.coords n v ∉ r.span n s.vectors) ∧
      (b = true ↔ r.span n s.vectors < r.span n s'.vectors)) ↔ r.Saturated n s.vectors := by
  have hs := h.fits
  constructor
  · intro hexact
    refine Slots.saturated_of_insert_eq_false hs.slots_fit fun v hlen hred hmem => ?_
    obtain ⟨b, s', he, hflag, -⟩ := hexact v (hlen.trans hs.length_slots) hred
    rw [insert, dim, if_pos hlen, hs.ring_eq] at he
    have hb : (Slots.insert r s.slots v).1 = b := congrArg Prod.fst (Except.ok.inj he)
    rw [hb, ← Bool.not_eq_true, hflag, not_not]
    exact hmem
  · intro hsat v hlen hred
    obtain ⟨b, s', he, -, hi⟩ := hs.insert_eq hlen hred
    have hgrow : r.span n s.vectors < r.span n s'.vectors ↔
        r.coords n v ∉ r.span n s.vectors := by
      rw [span_vectors_of_inserts hi, left_lt_sup, Submodule.span_singleton_le_iff_mem]
    have hflag : b = true ↔ r.coords n v ∉ r.span n s.vectors := by
      rw [← not_iff_not, Bool.not_eq_true, not_not]
      exact hi.eq_false_iff_mem hs.slots_fit (by rw [hs.length_slots, Nat.zero_add]) hsat
    exact ⟨b, s', he, hflag, hflag.trans hgrow.symm⟩

/-- Modulo 8, `(2, 1)` comes with its companion `(0, 4)`, and a second `(0, 4)`
is nothing new. -/
theorem insert_decides_of_settled : ∃ (r : WordRing) (s s' : GeneratorSet), r.width = 3 ∧
    Built r 2 [[2, 1]] s ∧ s.vectors = [[2, 1], [0, 4]] ∧ r.Saturated 2 s.vectors ∧
      s.insert [0, 4] = .ok (false, s') := by
  let r := WordRing.ofBits 3 (by decide) (by decide)
  let s : GeneratorSet := ⟨r, [some ⟨2, [1]⟩, some ⟨4, []⟩]⟩
  have hinsert : (empty r 2).insert [2, 1] = .ok (true, s) := by decide +kernel
  have hb : Built r 2 [[2, 1]] s := Built.empty.insert (by decide) (by decide) hinsert
  have hfirst : r.coords 2 (r.scale [2, 1] (r.pow2 (r.width - r.valuation 2 : ℕ))) =
      r.coords 2 [0, 4] := by decide +kernel
  have hsecond : r.coords 2 (r.scale [0, 4] (r.pow2 (r.width - r.valuation 4 : ℕ))) = 0 := by
    decide +kernel
  have hstored : r.coords 2 [0, 4] ∈ r.span 2 [[0, 4]] :=
    Submodule.subset_span ⟨_, List.mem_singleton_self _, rfl⟩
  have hsat : r.Saturated 2 [[2, 1], [0, 4]] :=
    ⟨hfirst ▸ hstored, hsecond ▸ Submodule.zero_mem _, trivial⟩
  obtain ⟨b, s', he, hflag, -⟩ :=
    (insert_decides_iff_saturated hb).mpr hsat [0, 4] (by decide) (by decide)
  have hmem : r.coords 2 [0, 4] ∈ r.span 2 [[2, 1], [0, 4]] :=
    Submodule.subset_span ⟨_, List.mem_cons_of_mem _ (List.mem_singleton_self _), rfl⟩
  obtain rfl : b = false := Bool.eq_false_iff.mpr fun hb => hflag.mp hb hmem
  exact ⟨r, s, s', rfl, hb, rfl, hsat, he⟩

/-- Modulo 8, `(4, 1)` settles in front of `(0, 4)` without its companion
`(0, 2)`. Inserting the companion then changes the set but not the span. -/
theorem insert_changes_span_member : ∃ (r : WordRing) (s s' : GeneratorSet), r.width = 3 ∧
    Built r 2 [[0, 4], [4, 1]] s ∧ r.ReducedVec [0, 2] ∧
      r.coords 2 [0, 2] ∈ r.span 2 s.vectors ∧ s.insert [0, 2] = .ok (true, s') ∧
      r.span 2 s'.vectors = r.span 2 s.vectors := by
  let r := WordRing.ofBits 3 (by decide) (by decide)
  let s : GeneratorSet := ⟨r, [some ⟨4, [1]⟩, some ⟨4, []⟩]⟩
  have h₁ : (empty r 2).insert [0, 4] = .ok (true, ⟨r, [none, some ⟨4, []⟩]⟩) := by
    decide +kernel
  have h₂ : GeneratorSet.insert ⟨r, [none, some ⟨4, []⟩]⟩ [4, 1] = .ok (true, s) := by
    decide +kernel
  have h₃ : s.insert [0, 2] = .ok (true, ⟨r, [some ⟨4, [1]⟩, some ⟨2, []⟩]⟩) := by
    decide +kernel
  have hb : Built r 2 [[0, 4], [4, 1]] s :=
    (Built.empty.insert (by decide) (by decide) h₁).insert (by decide) (by decide) h₂
  have hdouble : r.coords 2 [0, 2] = (2 : r.Elem) • r.coords 2 [4, 1] := by decide +kernel
  have hmem : r.coords 2 [0, 2] ∈ r.span 2 s.vectors := by
    rw [hdouble]
    exact Submodule.smul_mem _ _ (Submodule.subset_span ⟨_, List.mem_cons_self, rfl⟩)
  obtain ⟨b, s', he, -, hi⟩ := hb.fits.insert_eq (v := [0, 2]) (by decide) (by decide)
  cases h₃.symm.trans he
  refine ⟨r, s, _, rfl, hb, by decide, hmem, h₃, ?_⟩
  rw [span_vectors_of_inserts hi, sup_eq_left, Submodule.span_singleton_le_iff_mem]
  exact hmem

end GeneratorSet

end AffineRelations
