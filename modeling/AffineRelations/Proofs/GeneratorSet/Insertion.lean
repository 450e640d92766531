import AffineRelations.GeneratorSet
import AffineRelations.Proofs.Word.Coords

/-!
# The course of an insertion

`Inserts` retells an insertion as a derivation, one constructor for each way
in which a vector can meet the slot of its first column. A derivation holds
only well-formed generators: reduced, with a lead that is not zero, and as long
as the slots from their column on. Every insertion of a reduced vector into
well-formed slots has a derivation, and what a derivation preserves is shown
by induction on it.
-/
namespace AffineRelations

/-- A generator whose lead is followed by `n` columns. -/
structure Generator.Fits (r : WordRing) (n : ℕ) (g : Generator) : Prop where
  lead_reduced : r.Reduced g.lead
  lead_ne_zero : g.lead ≠ 0
  rest_reduced : r.ReducedVec g.rest
  length_rest : g.rest.length = n

theorem Generator.Fits.value_ne_zero {r : WordRing} {n : ℕ} {g : Generator} (h : g.Fits r n) :
    r.value g.lead ≠ 0 :=
  fun h₀ => h.lead_ne_zero ((r.value_eq_zero_iff h.lead_reduced).mp h₀)

theorem Generator.fits_of_reducedVec {r : WordRing} {n : ℕ} {x : UInt64} {xs : WordVec}
    (hv : r.ReducedVec (x :: xs)) (hx : x ≠ 0) (hlen : (x :: xs).length = n + 1) :
    Generator.Fits r n ⟨x, xs⟩ where
  lead_reduced := hv x (by simp)
  lead_ne_zero := hx
  rest_reduced := fun y hy => hv y (by simp [hy])
  length_rest := by simpa using hlen

namespace Slots

/-- Every generator fits the slots from its column on. -/
def Fits (r : WordRing) : Slots → Prop
  | [] => True
  | slot :: slots => (∀ g ∈ slot, g.Fits r slots.length) ∧ Fits r slots

theorem fits_replicate_none (r : WordRing) (n : ℕ) : Fits r (List.replicate n none) := by
  induction n with
  | zero => exact trivial
  | succ n ih => exact ⟨by simp, ih⟩

/-- The derivations of insertions: slots, vector, flag and slots afterwards. -/
inductive Inserts (r : WordRing) : Slots → WordVec → Bool → Slots → Prop
  | nil : Inserts r [] [] false []
  | skip {slot : Option Generator} {slots slots' : Slots} {xs : WordVec} {b : Bool} :
      (∀ g ∈ slot, g.Fits r slots.length) → Inserts r slots xs b slots' →
      Inserts r (slot :: slots) (0 :: xs) b (slot :: slots')
  /-- All slots to the right are vacant, and the companion comes along. -/
  | settle {slots slots' : Slots} {x : UInt64} {xs : WordVec} {b : Bool} :
      Generator.Fits r slots.length ⟨x, xs⟩ → (slots.all Option.isNone = true) →
      Inserts r slots (r.companion x xs) b slots' →
      Inserts r (none :: slots) (x :: xs) true (some ⟨x, xs⟩ :: slots')
  /-- Some slot to the right is taken, and the vector settles alone. -/
  | front {slots : Slots} {x : UInt64} {xs : WordVec} :
      Generator.Fits r slots.length ⟨x, xs⟩ → slots.all Option.isNone = false →
      Fits r slots → Inserts r (none :: slots) (x :: xs) true (some ⟨x, xs⟩ :: slots)
  | evict {slots slots₁ slots₂ : Slots} {g : Generator} {x : UInt64} {xs : WordVec}
      {b₁ b₂ : Bool} :
      Generator.Fits r slots.length ⟨x, xs⟩ → g.Fits r slots.length →
      r.valuation x < r.valuation g.lead →
      Inserts r slots (r.companion x xs) b₁ slots₁ →
      Inserts r slots₁ (r.resolvent x xs g.lead g.rest) b₂ slots₂ →
      Inserts r (some g :: slots) (x :: xs) true (some ⟨x, xs⟩ :: slots₂)
  | keep {slots slots' : Slots} {g : Generator} {x : UInt64} {xs : WordVec} {b : Bool} :
      Generator.Fits r slots.length ⟨x, xs⟩ → g.Fits r slots.length →
      r.valuation g.lead ≤ r.valuation x →
      Inserts r slots (r.resolvent g.lead g.rest x xs) b slots' →
      Inserts r (some g :: slots) (x :: xs) b (some g :: slots')

theorem Inserts.length_eq {r : WordRing} {slots slots' : Slots} {v : WordVec} {b : Bool}
    (h : Inserts r slots v b slots') : slots'.length = slots.length := by
  induction h with
  | nil => rfl
  | front => rfl
  | skip _ _ ih => simp [ih]
  | settle _ _ _ ih => simp [ih]
  | keep _ _ _ _ ih => simp [ih]
  | evict _ _ _ _ _ ih₁ ih₂ => simp [ih₂, ih₁]

theorem Inserts.fits {r : WordRing} {slots slots' : Slots} {v : WordVec} {b : Bool}
    (h : Inserts r slots v b slots') : Fits r slots' := by
  induction h with
  | nil => exact trivial
  | front hx _ hs => exact ⟨by rintro g ⟨⟩; exact hx, hs⟩
  | skip hg hi ih => exact ⟨by rwa [hi.length_eq], ih⟩
  | settle hx _ hi ih =>
      refine ⟨?_, ih⟩
      rintro g ⟨⟩
      rwa [hi.length_eq]
  | keep _ hg _ hi ih =>
      refine ⟨?_, ih⟩
      rintro g ⟨⟩
      rwa [hi.length_eq]
  | evict hx _ _ hi₁ hi₂ _ ih =>
      refine ⟨?_, ih⟩
      rintro g ⟨⟩
      rwa [hi₂.length_eq, hi₁.length_eq]

theorem insert_zero_cons (r : WordRing) (slot : Option Generator) (slots : Slots)
    (xs : WordVec) : insert r (slot :: slots) (0 :: xs) =
      ((insert r slots xs).1, slot :: (insert r slots xs).2) := by
  cases slot <;> simp only [insert, if_true]

/-- A reduced vector as long as well-formed slots is inserted by a derivation. -/
theorem inserts_insert {r : WordRing} {slots : Slots} {v : WordVec} (hs : Fits r slots)
    (hlen : v.length = slots.length) (hv : r.ReducedVec v) :
    Inserts r slots v (insert r slots v).1 (insert r slots v).2 := by
  induction slots, v using Slots.insert.induct r with
  | case1 slot slots xs ih =>
      have hi := ih hs.2 (by simpa using hlen) (fun x hx => hv x (by simp [hx]))
      rw [insert_zero_cons]
      exact .skip hs.1 hi
  | case2 slots x xs hx hnone ih =>
      have hfit := Generator.fits_of_reducedVec hv hx hlen
      have hi := ih hs.2 (by rw [r.length_companion]; exact hfit.length_rest)
        (r.reducedVec_scale _ _)
      rw [insert, if_neg hx]
      simp only [hnone, if_true]
      exact .settle hfit hnone hi
  | case3 slots x xs hx hnone =>
      have hfit := Generator.fits_of_reducedVec hv hx hlen
      rw [insert, if_neg hx]
      simp only [hnone]
      exact .front hfit (by simpa using hnone) hs.2
  | case4 slots x xs hx g hlt after ih₁ ih₂ =>
      have hfit := Generator.fits_of_reducedVec hv hx hlen
      have hg := hs.1 g rfl
      have hi₁ := ih₁ hs.2 (by rw [r.length_companion]; exact hfit.length_rest)
        (r.reducedVec_scale _ _)
      have hi₂ := ih₂ hi₁.fits
        (by simp [WordRing.resolvent, after, hi₁.length_eq, hg.length_rest, hfit.length_rest])
        (r.reducedVec_combine _ _ _ _)
      rw [insert, if_neg hx]
      simp only [hlt, if_true]
      exact .evict hfit hg hlt hi₁ hi₂
  | case5 slots x xs hx g hlt ih =>
      have hfit := Generator.fits_of_reducedVec hv hx hlen
      have hg := hs.1 g rfl
      have hi := ih hs.2
        (by simp [WordRing.resolvent, hg.length_rest, hfit.length_rest])
        (r.reducedVec_combine _ _ _ _)
      rw [insert, if_neg hx]
      simp only [hlt, if_false]
      exact .keep hfit hg (by omega) hi
  | case6 slots v hno =>
      cases slots with
      | nil =>
          obtain rfl : v = [] := List.length_eq_zero_iff.mp hlen
          simpa [insert] using Inserts.nil
      | cons slot slots =>
          cases v with
          | nil => simp at hlen
          | cons x xs => exact (hno _ _ _ _ rfl rfl).elim

end Slots

end AffineRelations
