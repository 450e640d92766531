import AffineRelations.Proofs.GeneratorSet.Leads

/-!
# Insertions only make progress

An insertion touches no column before its vector's lead. From there on a column
that has a lead keeps one, and the valuation in a column never rises, neither by
the vector itself nor by the companions and resolvents that it sends on to the
right. The flag tells the two outcomes apart: either some column has its first
lead or one of lower valuation, or nothing at all has changed.
-/
namespace AffineRelations

namespace Slots
variable {r : WordRing} {slots slots' : Slots} {v : WordVec} {b : Bool}

theorem Inserts.eq_of_false (h : Inserts r slots v b slots') (hb : b = false) :
    slots' = slots := by
  induction h with
  | nil => rfl
  | skip _ _ ih => rw [ih hb]
  | settle => cases hb
  | front => cases hb
  | evict => cases hb
  | keep _ _ _ _ ih => rw [ih hb]

/-- The slots before the lead stay as they are. -/
theorem Inserts.take_eq (h : Inserts r slots v b slots') {j : ℕ} (hj : v.leadIndex? = some j) :
    slots'.take j = slots.take j := by
  have hlead {x : UInt64} {xs : WordVec} {j : ℕ} (hx : x ≠ 0)
      (hj : WordVec.leadIndex? (x :: xs) = some j) : j = 0 := by
    rw [WordVec.leadIndex?_cons hx] at hj
    exact (Option.some.inj hj).symm
  induction h generalizing j with
  | nil => cases hj
  | skip _ _ ih =>
      rw [WordVec.leadIndex?_zero_cons] at hj
      obtain ⟨i, hi, rfl⟩ := Option.map_eq_some_iff.mp hj
      rw [List.take_succ_cons, List.take_succ_cons, ih hi]
  | settle hx => rw [hlead hx.lead_ne_zero hj, List.take_zero, List.take_zero]
  | front hx => rw [hlead hx.lead_ne_zero hj, List.take_zero, List.take_zero]
  | evict hx => rw [hlead hx.lead_ne_zero hj, List.take_zero, List.take_zero]
  | keep hx => rw [hlead hx.lead_ne_zero hj, List.take_zero, List.take_zero]

/-- A taken slot stays taken, by a lead of the same or a lower valuation. -/
theorem Inserts.exists_le (h : Inserts r slots v b slots') {i : ℕ} {g : Generator}
    (hg : slots[i]? = some (some g)) :
    ∃ g', slots'[i]? = some (some g') ∧ r.valuation g'.lead ≤ r.valuation g.lead := by
  induction h generalizing i g with
  | nil => cases hg
  | front =>
      cases i with
      | zero => cases hg
      | succ i => exact ⟨g, hg, le_rfl⟩
  | skip _ _ ih =>
      cases i with
      | zero => exact ⟨g, hg, le_rfl⟩
      | succ i => exact ih hg
  | settle _ _ _ ih =>
      cases i with
      | zero => cases hg
      | succ i => exact ih hg
  | @evict _ _ _ _ x xs _ _ _ _ hlt _ _ ih₁ ih₂ =>
      cases i with
      | zero =>
          cases hg
          exact ⟨⟨x, xs⟩, rfl, hlt.le⟩
      | succ i =>
          obtain ⟨g₁, hg₁, hle₁⟩ := ih₁ hg
          obtain ⟨g₂, hg₂, hle₂⟩ := ih₂ hg₁
          exact ⟨g₂, hg₂, hle₂.trans hle₁⟩
  | keep _ _ _ _ ih =>
      cases i with
      | zero => exact ⟨g, hg, le_rfl⟩
      | succ i => exact ih hg

/-- If the flag is set, some slot is taken that was vacant, or by a lead of lower
valuation. -/
theorem Inserts.exists_lt (h : Inserts r slots v b slots') (hb : b = true) :
    ∃ (i : ℕ) (g' : Generator), slots'[i]? = some (some g') ∧
      ∀ g, slots[i]? = some (some g) → r.valuation g'.lead < r.valuation g.lead := by
  induction h with
  | nil => cases hb
  | skip _ _ ih =>
      obtain ⟨i, hi⟩ := ih hb
      exact ⟨i + 1, hi⟩
  | @settle _ _ x xs => exact ⟨0, ⟨x, xs⟩, rfl, nofun⟩
  | @front _ x xs => exact ⟨0, ⟨x, xs⟩, rfl, nofun⟩
  | @evict _ _ _ _ x xs _ _ _ _ hlt =>
      refine ⟨0, ⟨x, xs⟩, rfl, fun g hg => ?_⟩
      cases hg
      exact hlt
  | keep _ _ _ _ ih =>
      obtain ⟨i, hi⟩ := ih hb
      exact ⟨i + 1, hi⟩

end Slots

namespace GeneratorSet
variable {r : WordRing} {n : ℕ}

section
variable {s : GeneratorSet} (hs : s.Fits r n)
include hs

theorem Fits.vectorAt_mem {i : ℕ} {g : Generator} (hi : s.slots[i]? = some (some g)) :
    g.vectorAt i ∈ s.vectors ∧ (g.vectorAt i).leadIndex? = some i ∧
      (g.vectorAt i).leadEntry = g.lead := by
  have hg := (hs.slots_fit.aligned.getElem? hi).1
  refine ⟨Slots.mem_vectorsFrom.mpr ⟨i, g, hi, ?_⟩, g.leadIndex?_vectorAt hg i,
    g.leadEntry_vectorAt hg i⟩
  rw [Nat.zero_add]

/-- A stored vector is the vector of the slot in which its lead stands. -/
theorem Fits.exists_vectorAt {v : WordVec} (hv : v ∈ s.vectors) :
    ∃ (i : ℕ) (g : Generator), s.slots[i]? = some (some g) ∧ v = g.vectorAt i ∧
      v.leadIndex? = some i := by
  obtain ⟨i, g, hi, rfl⟩ := Slots.mem_vectorsFrom.mp hv
  rw [Nat.zero_add]
  exact ⟨i, g, hi, rfl, (hs.vectorAt_mem hi).2.1⟩

end

/-- After an insertion the vectors with a lead before that of the inserted one
are what they were. Each column with a lead still has one, whose valuation is
not higher. If the flag is set, a column that is not before the lead has its
first lead or one of lower valuation, and if not the set is the same. -/
theorem insert_progress {vs : List WordVec} {s : GeneratorSet} (h : Built r n vs s) {v : WordVec}
    (hlen : v.length = n) (hred : r.ReducedVec v) {j : ℕ} (hj : v.leadIndex? = some j) :
    ∃ b s', s.insert v = .ok (b, s') ∧
      s'.vectors.filter (fun g => !g.leadsFrom j) = s.vectors.filter (fun g => !g.leadsFrom j) ∧
      (∀ g ∈ s.vectors, (∃ g' ∈ s'.vectors, g'.leadIndex? = g.leadIndex?) ∧
        ∀ g' ∈ s'.vectors, g'.leadIndex? = g.leadIndex? →
          r.valuation g'.leadEntry ≤ r.valuation g.leadEntry) ∧
      (b = true → ∃ g' ∈ s'.vectors, g'.leadsFrom j = true ∧
        ∀ g ∈ s.vectors, g.leadIndex? = g'.leadIndex? →
          r.valuation g'.leadEntry < r.valuation g.leadEntry) ∧
      (b = false → s' = s) := by
  have hs := h.fits
  obtain ⟨b, s', he, hs', hi⟩ := hs.insert_eq hlen hred
  have htake := hi.take_eq hj
  refine ⟨b, s', he, ?_, ?_, ?_, ?_⟩
  · have hjn : j ≤ n := by
      obtain ⟨x, xs, -, rfl⟩ := WordVec.exists_eq_of_leadIndex? hj
      rw [← hlen]
      simp
    have hle : j ≤ s.slots.length := hs.length_slots ▸ hjn
    have hle' : j ≤ s'.slots.length := hs'.length_slots ▸ hjn
    rw [vectors, vectors, Slots.filter_not_leadsFrom hs'.slots_fit.aligned hle',
      Slots.filter_not_leadsFrom hs.slots_fit.aligned hle, htake]
  · intro g hg
    obtain ⟨i, e, hslot, rfl, hlead⟩ := hs.exists_vectorAt hg
    obtain ⟨e', hslot', hle⟩ := hi.exists_le hslot
    obtain ⟨hmem', hlead', hentry'⟩ := hs'.vectorAt_mem hslot'
    rw [hlead, (hs.vectorAt_mem hslot).2.2]
    refine ⟨⟨e'.vectorAt i, hmem', hlead'⟩, fun g' hg' hsame => ?_⟩
    obtain ⟨i', e'', hslot'', rfl, hlead''⟩ := hs'.exists_vectorAt hg'
    obtain rfl : i' = i := Option.some.inj (hlead''.symm.trans hsame)
    obtain rfl : e'' = e' := by simpa [hslot'] using hslot''.symm
    rwa [hentry']
  · intro hb
    obtain ⟨i, e', hslot', hlt⟩ := hi.exists_lt hb
    obtain ⟨hmem', hlead', hentry'⟩ := hs'.vectorAt_mem hslot'
    -- before the lead nothing has changed, so a slot that improved is not there
    have hji : j ≤ i := by
      by_contra hij
      have hsame : s.slots[i]? = s'.slots[i]? := by
        rw [← List.getElem?_take_of_lt (Nat.lt_of_not_le hij), ← htake,
          List.getElem?_take_of_lt (Nat.lt_of_not_le hij)]
      exact lt_irrefl _ (hlt e' (hsame.trans hslot'))
    refine ⟨e'.vectorAt i, hmem', ?_, fun g hg hsame => ?_⟩
    · rw [WordVec.leadsFrom, hlead']
      exact decide_eq_true hji
    · obtain ⟨i', e, hslot, rfl, hlead⟩ := hs.exists_vectorAt hg
      obtain rfl : i' = i := Option.some.inj ((hlead.symm.trans hsame).trans hlead')
      rw [hentry', (hs.vectorAt_mem hslot).2.2]
      exact hlt e hslot
  · intro hb
    obtain ⟨ring, slots⟩ := s
    obtain ⟨ring', slots'⟩ := s'
    obtain rfl : ring' = ring := hs'.ring_eq.trans hs.ring_eq.symm
    obtain rfl : slots' = slots := hi.eq_of_false hb
    rfl

/-- Modulo 8, `(0, 2, 3)` evicts `(0, 4, 1)`, and what is left of that evicts its
companion `(0, 0, 2)`. The vector `(1, 0, 0)` stays. -/
theorem insert_progress_evicting : ∃ (r : WordRing) (s s' : GeneratorSet), r.width = 3 ∧
    Built r 3 [[1, 0, 0], [0, 4, 1]] s ∧ s.vectors = [[1, 0, 0], [0, 4, 1], [0, 0, 2]] ∧
      s.insert [0, 2, 3] = .ok (true, s') ∧ s'.vectors = [[1, 0, 0], [0, 2, 3], [0, 0, 3]] ∧
      s'.vectors.filter (fun g => !g.leadsFrom 1) = s.vectors.filter (fun g => !g.leadsFrom 1) ∧
      ∃ g' ∈ s'.vectors, g'.leadsFrom 1 = true ∧ ∀ g ∈ s.vectors, g.leadIndex? = g'.leadIndex? →
        r.valuation g'.leadEntry < r.valuation g.leadEntry := by
  let r := WordRing.ofBits 3 (by decide) (by decide)
  have h₁ : (empty r 3).insert [1, 0, 0] = .ok (true, ⟨r, [some ⟨1, [0, 0]⟩, none, none]⟩) := by
    decide +kernel
  have h₂ : GeneratorSet.insert ⟨r, [some ⟨1, [0, 0]⟩, none, none]⟩ [0, 4, 1] =
      .ok (true, ⟨r, [some ⟨1, [0, 0]⟩, some ⟨4, [1]⟩, some ⟨2, []⟩]⟩) := by
    decide +kernel
  have h₃ : GeneratorSet.insert ⟨r, [some ⟨1, [0, 0]⟩, some ⟨4, [1]⟩, some ⟨2, []⟩]⟩ [0, 2, 3] =
      .ok (true, ⟨r, [some ⟨1, [0, 0]⟩, some ⟨2, [3]⟩, some ⟨3, []⟩]⟩) := by
    decide +kernel
  have hb : Built r 3 [[1, 0, 0], [0, 4, 1]]
      ⟨r, [some ⟨1, [0, 0]⟩, some ⟨4, [1]⟩, some ⟨2, []⟩]⟩ :=
    (Built.empty.insert (by decide) (by decide) h₁).insert (by decide) (by decide) h₂
  obtain ⟨b, s', he, hbelow, -, hgain, -⟩ :=
    insert_progress hb (v := [0, 2, 3]) (by decide) (by decide) (j := 1) (by decide)
  cases h₃.symm.trans he
  exact ⟨r, _, _, rfl, hb, rfl, h₃, rfl, hbelow, hgain rfl⟩

end GeneratorSet

end AffineRelations
