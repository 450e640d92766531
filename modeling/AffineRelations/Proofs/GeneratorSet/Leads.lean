import AffineRelations.Proofs.GeneratorSet.Saturation

/-!
# Where the leads stand

The slots say for each column whether a stored vector has its lead there. Here
the stored vectors themselves say so: a vector is stored exactly if it is the
vector of a taken slot, its lead stands in the column of the slot, and the
vectors follow each other with their leads ascending. Only the lead must not be
the word zero; reduced words are not asked for.

An insertion passes over the columns before its vector's lead, and all this
holds again after it.
-/
namespace AffineRelations

namespace WordVec

/-- The lead stands in column `j` or behind it. -/
def leadsFrom (j : ℕ) (v : WordVec) : Bool := v.leadIndex?.any (j ≤ ·)

theorem leadIndex?_zero_cons (v : WordVec) : leadIndex? (0 :: v) = v.leadIndex?.map (· + 1) := by
  simp [leadIndex?, List.findIdx?_cons]

theorem leadIndex?_cons {x : UInt64} (hx : x ≠ 0) (xs : WordVec) :
    leadIndex? (x :: xs) = some 0 := by
  simp [leadIndex?, List.findIdx?_cons, hx]

theorem leadIndex?_replicate_append (j : ℕ) (v : WordVec) :
    leadIndex? (List.replicate j 0 ++ v) = v.leadIndex?.map (j + ·) := by
  induction j with
  | zero => simp
  | succ j ih =>
      rw [List.replicate_succ, List.cons_append, leadIndex?_zero_cons, ih, Option.map_map]
      congr 1
      funext i
      exact Nat.add_right_comm j i 1

/-- A vector with a lead is zeros, the lead and the rest. -/
theorem exists_eq_of_leadIndex? {v : WordVec} {j : ℕ} (h : v.leadIndex? = some j) :
    ∃ x xs, x ≠ 0 ∧ v = List.replicate j 0 ++ x :: xs := by
  induction v generalizing j with
  | nil => cases h
  | cons y v ih =>
      by_cases hy : y = 0
      · subst hy
        rw [leadIndex?_zero_cons] at h
        obtain ⟨i, hi, rfl⟩ := Option.map_eq_some_iff.mp h
        obtain ⟨x, xs, hx, rfl⟩ := ih hi
        exact ⟨x, xs, hx, by rw [List.replicate_succ, List.cons_append]⟩
      · rw [leadIndex?_cons hy] at h
        obtain rfl := Option.some.inj h
        exact ⟨y, v, hy, rfl⟩

theorem eq_replicate_of_leadIndex? {v : WordVec} (h : v.leadIndex? = none) :
    v = List.replicate v.length 0 := by
  rw [List.eq_replicate_iff]
  refine ⟨rfl, fun x hx => ?_⟩
  simpa using List.findIdx?_eq_none_iff.mp h x hx

end WordVec

theorem WordRing.mul_eq_zero_of_value (r : WordRing) {x y : UInt64}
    (h : r.value x * r.value y = 0) : r.mul x y = 0 := by
  rw [← r.value_mul] at h
  exact (r.value_eq_zero_iff (r.reduced_residue _)).mp h

theorem WordRing.scale_replicate_append (r : WordRing) (j : ℕ) (v : WordVec) (c : UInt64) :
    r.scale (List.replicate j 0 ++ v) c = List.replicate j 0 ++ r.scale v c := by
  have hzero : r.mul 0 c = 0 := r.mul_eq_zero_of_value (by rw [value_zero, zero_mul])
  rw [scale, List.map_append, List.map_replicate, hzero]
  rfl

/-- The stored vector of a generator in column `j`. -/
def Generator.vectorAt (g : Generator) (j : ℕ) : WordVec := List.replicate j 0 ++ g.lead :: g.rest

section
variable {g : Generator} (hg : g.lead ≠ 0) (j : ℕ)
include hg

theorem Generator.leadIndex?_vectorAt : (g.vectorAt j).leadIndex? = some j := by
  rw [vectorAt, WordVec.leadIndex?_replicate_append, WordVec.leadIndex?_cons hg]
  rfl

theorem Generator.leadEntry_vectorAt : (g.vectorAt j).leadEntry = g.lead :=
  WordVec.leadEntry_replicate_append j hg g.rest

theorem Generator.leadsFrom_vectorAt (i : ℕ) : (g.vectorAt j).leadsFrom i = decide (i ≤ j) := by
  rw [WordVec.leadsFrom, leadIndex?_vectorAt hg]
  rfl

end

namespace Slots
variable {r : WordRing}

/-- Every generator has a lead and is as long as the slots from its column on. -/
def Aligned : Slots → Prop
  | [] => True
  | slot :: slots => (∀ g ∈ slot, g.lead ≠ 0 ∧ g.rest.length = slots.length) ∧ Aligned slots

theorem Fits.aligned {slots : Slots} (h : slots.Fits r) : slots.Aligned := by
  induction slots with
  | nil => exact trivial
  | cons slot slots ih =>
      exact ⟨fun g hg => ⟨(h.1 g hg).lead_ne_zero, (h.1 g hg).length_rest⟩, ih h.2⟩

theorem Aligned.getElem? {slots : Slots} (h : slots.Aligned) {i : ℕ} {g : Generator}
    (hi : slots[i]? = some (some g)) : g.lead ≠ 0 ∧ g.rest.length + (i + 1) = slots.length := by
  induction slots generalizing i with
  | nil => cases hi
  | cons slot slots ih =>
      cases i with
      | zero =>
          obtain ⟨hlead, hlen⟩ := h.1 g (Option.some.inj hi)
          exact ⟨hlead, by rw [hlen, List.length_cons]⟩
      | succ i =>
          obtain ⟨hlead, hlen⟩ := ih h.2 hi
          exact ⟨hlead, by rw [List.length_cons, ← hlen, Nat.add_assoc, Nat.add_assoc]⟩

/-- The stored vectors are those of the taken slots. -/
theorem mem_vectorsFrom {j : ℕ} {slots : Slots} {v : WordVec} :
    v ∈ vectorsFrom j slots ↔
      ∃ (i : ℕ) (g : Generator), slots[i]? = some (some g) ∧ v = g.vectorAt (j + i) := by
  induction slots generalizing j with
  | nil => simp [vectorsFrom]
  | cons slot slots ih =>
      rw [← Nat.or_exists_add_one]
      cases slot with
      | none => simp [vectorsFrom, ih, Nat.add_right_comm, Nat.add_assoc]
      | some g => simp [vectorsFrom, ih, Generator.vectorAt, Nat.add_right_comm, Nat.add_assoc]

theorem vectorsFrom_append (j : ℕ) (us vs : Slots) :
    vectorsFrom j (us ++ vs) = vectorsFrom j us ++ vectorsFrom (j + us.length) vs := by
  induction us generalizing j with
  | nil => rfl
  | cons slot us ih =>
      rw [List.length_cons, Nat.add_comm us.length, ← Nat.add_assoc]
      cases slot with
      | none => exact ih (j + 1)
      | some g => exact congrArg _ (ih (j + 1))

/-- Column `j` splits the stored vectors at the slot of this column. -/
theorem vectorsFrom_split {slots : Slots} (h : slots.Aligned) {j : ℕ} (hj : j ≤ slots.length) :
    vectorsFrom 0 slots = vectorsFrom 0 (slots.take j) ++ vectorsFrom j (slots.drop j) ∧
      (∀ v ∈ vectorsFrom 0 (slots.take j), v.leadsFrom j = false) ∧
      ∀ v ∈ vectorsFrom j (slots.drop j), v.leadsFrom j = true := by
  have hsplit := vectorsFrom_append 0 (slots.take j) (slots.drop j)
  rw [List.take_append_drop, List.length_take_of_le hj, Nat.zero_add] at hsplit
  refine ⟨hsplit, fun v hv => ?_, fun v hv => ?_⟩
  · obtain ⟨i, g, hi, rfl⟩ := mem_vectorsFrom.mp hv
    rw [List.getElem?_take] at hi
    split_ifs at hi with hlt
    rw [Generator.leadsFrom_vectorAt (h.getElem? hi).1, decide_eq_false_iff_not]
    omega
  · obtain ⟨i, g, hi, rfl⟩ := mem_vectorsFrom.mp hv
    rw [List.getElem?_drop] at hi
    rw [Generator.leadsFrom_vectorAt (h.getElem? hi).1]
    exact decide_eq_true (Nat.le_add_right j i)

section
variable {slots : Slots} (h : slots.Aligned) {j : ℕ} (hj : j ≤ slots.length)
include h hj

theorem filter_leadsFrom :
    (vectorsFrom 0 slots).filter (WordVec.leadsFrom j) = vectorsFrom j (slots.drop j) := by
  obtain ⟨hsplit, hfront, hback⟩ := vectorsFrom_split h hj
  rw [hsplit, List.filter_append, List.filter_eq_self.mpr hback,
    List.filter_eq_nil_iff.mpr fun v hv => by simp [hfront v hv], List.nil_append]

theorem filter_not_leadsFrom :
    (vectorsFrom 0 slots).filter (fun v => !v.leadsFrom j) = vectorsFrom 0 (slots.take j) := by
  obtain ⟨hsplit, hfront, hback⟩ := vectorsFrom_split h hj
  rw [hsplit, List.filter_append, List.filter_eq_self.mpr fun v hv => by simp [hfront v hv],
    List.filter_eq_nil_iff.mpr fun v hv => by simp [hback v hv], List.append_nil]

end

/-- An insertion goes straight to the column of its vector's lead. -/
theorem insert_replicate_append (r : WordRing) {j : ℕ} {slots : Slots} (hj : j ≤ slots.length)
    (v : WordVec) : insert r slots (List.replicate j 0 ++ v) =
      ((insert r (slots.drop j) v).1, slots.take j ++ (insert r (slots.drop j) v).2) := by
  induction j generalizing slots with
  | zero => rfl
  | succ j ih =>
      cases slots with
      | nil => cases hj
      | cons slot slots =>
          rw [List.replicate_succ, List.cons_append, insert_zero_cons,
            ih (Nat.le_of_succ_le_succ hj)]
          rfl

section
variable {slots : Slots}

theorem insert_nil (r : WordRing) (slots : Slots) : insert r slots [] = (false, slots) := by
  cases slots with
  | nil => simp only [insert]
  | cons slot slots => simp only [insert]

theorem insert_zeros (r : WordRing) {k : ℕ} (hk : k ≤ slots.length) :
    insert r slots (List.replicate k 0) = (false, slots) := by
  have h := insert_replicate_append r hk []
  rwa [List.append_nil, insert_nil, List.take_append_drop] at h

/-- An insertion that does not look at a slot and a coordinate has neither. -/
theorem eq_nil_of_length_eq {v : WordVec} (hlen : v.length = slots.length)
    (hno : ∀ slot slots' x xs, slots = slot :: slots' → v = x :: xs → False) :
    slots = [] ∧ v = [] := by
  cases slots with
  | nil => exact ⟨rfl, List.length_eq_zero_iff.mp hlen⟩
  | cons slot slots =>
      cases v with
      | nil => cases hlen
      | cons x xs => exact (hno _ _ _ _ rfl rfl).elim

/-- An insertion keeps the generators as long as their slots ask, whatever the
words are. -/
theorem Aligned.insert {v : WordVec} (h : slots.Aligned) (hlen : v.length = slots.length) :
    (Slots.insert r slots v).2.Aligned ∧ (Slots.insert r slots v).2.length = slots.length := by
  induction slots, v using Slots.insert.induct r with
  | case1 slot slots xs ih =>
      obtain ⟨ha, hl⟩ := ih h.2 (by simpa using hlen)
      rw [insert_zero_cons]
      exact ⟨⟨hl.symm ▸ h.1, ha⟩, congrArg Nat.succ hl⟩
  | case2 slots x xs hx hnone ih =>
      have hxs : xs.length = slots.length := Nat.succ.inj hlen
      obtain ⟨ha, hl⟩ := ih h.2 (by rw [r.length_companion, hxs])
      rw [Slots.insert, if_neg hx]
      simp only [hnone, if_true]
      refine ⟨⟨?_, ha⟩, congrArg Nat.succ hl⟩
      rintro g ⟨⟩
      exact ⟨hx, hxs.trans hl.symm⟩
  | case3 slots x xs hx hnone =>
      rw [Slots.insert, if_neg hx]
      simp only [hnone]
      refine ⟨⟨?_, h.2⟩, rfl⟩
      rintro g ⟨⟩
      exact ⟨hx, Nat.succ.inj hlen⟩
  | case4 slots x xs hx g hlt after ih₁ ih₂ =>
      have hxs : xs.length = slots.length := Nat.succ.inj hlen
      obtain ⟨ha₁, hl₁⟩ := ih₁ h.2 (by rw [r.length_companion, hxs])
      obtain ⟨ha₂, hl₂⟩ := ih₂ ha₁
        (by simp [WordRing.resolvent, after, hl₁, (h.1 g rfl).2, hxs])
      rw [Slots.insert, if_neg hx]
      simp only [hlt, if_true]
      refine ⟨⟨?_, ha₂⟩, congrArg Nat.succ (hl₂.trans hl₁)⟩
      rintro g ⟨⟩
      exact ⟨hx, hxs.trans (hl₂.trans hl₁).symm⟩
  | case5 slots x xs hx g hlt ih =>
      have hxs : xs.length = slots.length := Nat.succ.inj hlen
      obtain ⟨ha, hl⟩ := ih h.2 (by simp [WordRing.resolvent, (h.1 g rfl).2, hxs])
      rw [Slots.insert, if_neg hx]
      simp only [hlt, if_false]
      refine ⟨⟨?_, ha⟩, congrArg Nat.succ hl⟩
      rintro g ⟨⟩
      exact ⟨(h.1 _ rfl).1, (h.1 _ rfl).2.trans hl.symm⟩
  | case6 slots v hno =>
      obtain ⟨rfl, rfl⟩ := eq_nil_of_length_eq hlen hno
      rw [insert_nil]
      exact ⟨h, rfl⟩

theorem Aligned.exists_leadIndex? (h : slots.Aligned) {j : ℕ} {v : WordVec}
    (hv : v ∈ vectorsFrom j slots) : ∃ i, v.leadIndex? = some (j + i) := by
  obtain ⟨i, g, hi, rfl⟩ := mem_vectorsFrom.mp hv
  exact ⟨i, Generator.leadIndex?_vectorAt (h.getElem? hi).1 (j + i)⟩

theorem vectorsFrom_cons (j : ℕ) (slot : Option Generator) (slots : Slots) :
    vectorsFrom j (slot :: slots) = vectorsFrom j [slot] ++ vectorsFrom (j + 1) slots :=
  vectorsFrom_append j [slot] slots

theorem vectorsFrom_eq_nil_iff {j : ℕ} :
    vectorsFrom j slots = [] ↔ slots.all Option.isNone = true := by
  induction slots generalizing j with
  | nil => simp [vectorsFrom]
  | cons slot slots ih =>
      cases slot with
      | none => simpa [vectorsFrom] using ih
      | some g => simp [vectorsFrom]

theorem aligned_replicate_none (n : ℕ) : Aligned (List.replicate n none) := by
  induction n with
  | zero => exact trivial
  | succ n ih =>
      rw [List.replicate_succ]
      refine ⟨?_, ih⟩
      rintro g ⟨⟩

theorem Aligned.pairwise_vectorsFrom {slots : Slots} (h : slots.Aligned) (j : ℕ) :
    (vectorsFrom j slots).Pairwise fun u v =>
      ∃ i ∈ u.leadIndex?, ∃ k ∈ v.leadIndex?, i < k := by
  induction slots generalizing j with
  | nil => exact List.Pairwise.nil
  | cons slot slots ih =>
      cases slot with
      | none => exact ih h.2 (j + 1)
      | some g =>
          refine List.Pairwise.cons (fun v hv => ?_) (ih h.2 (j + 1))
          obtain ⟨i, hi⟩ := h.2.exists_leadIndex? hv
          exact ⟨j, Generator.leadIndex?_vectorAt (h.1 g rfl).1 j, j + 1 + i, hi,
            Nat.lt_add_right i (Nat.lt_succ_self j)⟩

end

end Slots

end AffineRelations
