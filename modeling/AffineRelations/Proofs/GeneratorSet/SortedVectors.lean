import AffineRelations.Proofs.GeneratorSet.Leads
import AffineRelations.Proofs.GeneratorSet.Membership

/-!
# Generator sets as sorted lists

A generator set can be kept as the list of its vectors, sorted by their leads.
An insertion then looks for the first vector whose lead is not before its own,
forms companions and resolvents of whole vectors, and calls itself with them. Here
three things can go wrong that slots rule out: a vector is to be stored in a column
that has a lead already, a call is made with a lead that has not moved to the
right, or calls are nested too deeply. In each case the functions below stop with
a fault.

No fault ever occurs, and the lists are those of the slots. Words need not be
reduced for that. A lead may then denote zero; its valuation is the width and its
odd part is zero, and still the lead of every companion and resolvent that it
takes part in has moved on.
-/
namespace AffineRelations

/-- Why an operation on a sorted list stops. -/
inductive SortedFault where
  | occupied (column : ℕ)
  | stalled (column : ℕ)
  | tooDeep
  deriving DecidableEq, Repr

namespace SortedVectors

/-- The vectors up to the first whose lead stands in column `j` or behind it. -/
def before (j : ℕ) (vs : List WordVec) : List WordVec := vs.takeWhile fun g => !g.leadsFrom j

def behind (j : ℕ) (vs : List WordVec) : List WordVec := vs.dropWhile fun g => !g.leadsFrom j

/-- Stores a vector with its lead in column `j`. -/
def place (j : ℕ) (v : WordVec) (vs : List WordVec) : Except SortedFault (List WordVec) :=
  if (behind j vs).head?.any fun g => g.leadIndex? = some j then .error (.occupied j)
  else .ok (before j vs ++ v :: behind j vs)

/-- A call that has to move to the right of column `j`. -/
def onward {α : Type} (call : List WordVec → WordVec → Except SortedFault α) (j : ℕ)
    (vs : List WordVec) (v : WordVec) : Except SortedFault α :=
  if v.leadIndex?.all fun i => j < i then call vs v else .error (.stalled j)

/-- What is left of `b` after a multiple of `a` has taken its lead to zero. -/
def remainder (r : WordRing) (a b : WordVec) : WordVec :=
  let p := r.split a.leadEntry
  let q := r.split b.leadEntry
  r.combine p.2 b (r.mul (r.pow2 ((q.1 : Int) - p.1)) q.2) a

section
variable (r : WordRing) (call : List WordVec → WordVec → Except SortedFault (Bool × List WordVec))
  (j : ℕ) (v : WordVec) (vs : List WordVec)

/-- Stores a vector after its companion, which an odd lead does not have. -/
def settle : Except SortedFault (List WordVec) :=
  if v.leadEntry &&& 1 = 1 then place j v vs
  else do
    let after ← call vs (r.scale v (r.pow2 ((r.width : Int) - r.valuation v.leadEntry)))
    place j v after.2

/-- Inserts a vector with its lead in column `j`. -/
def meet : Except SortedFault (Bool × List WordVec) :=
  match behind j vs with
  | [] => do return (true, ← settle r call j v vs)
  | g :: rest =>
    if g.leadIndex? ≠ some j then .ok (true, before j vs ++ v :: g :: rest)
    else if r.valuation v.leadEntry < r.valuation g.leadEntry then do
      let after ← call (← settle r call j v (before j vs ++ rest)) (remainder r v g)
      return (true, after.2)
    else call vs (remainder r g v)

end

/-- Inserts a vector, with at most `depth` calls in each other. -/
def insert (r : WordRing) : ℕ → List WordVec → WordVec → Except SortedFault (Bool × List WordVec)
  | 0, vs, v => if v.leadIndex? = none then .ok (false, vs) else .error .tooDeep
  | depth + 1, vs, v => match v.leadIndex? with
    | none => .ok (false, vs)
    | some j => meet r (onward (insert r depth) j) j v vs

/-- The multiple of a lead `x` that takes the lead `y` to zero, if `x` divides `y`. -/
def coefficient? (r : WordRing) (x y : UInt64) : Option UInt64 :=
  let p := r.split x
  let q := r.split y
  if q.1 < p.1 then none
  else match r.inverse p.2 with
    | .error _ => none
    | .ok u => some (r.mul (r.mul (r.pow2 ((q.1 : Int) - p.1)) q.2) u)

/-- Whether `depth` reductions take the vector to zero. -/
def contains (r : WordRing) : ℕ → List WordVec → WordVec → Except SortedFault Bool
  | 0, _, v => if v.leadIndex? = none then .ok true else .error .tooDeep
  | depth + 1, vs, v => match v.leadIndex? with
    | none => .ok true
    | some j => match (behind j vs).head? with
      | none => .ok false
      | some g =>
        if g.leadIndex? ≠ some j then .ok false
        else match coefficient? r g.leadEntry v.leadEntry with
          | none => .ok false
          | some c => onward (contains r depth) j vs (r.combine 1 v c g)

end SortedVectors

namespace WordRing
variable (r : WordRing)

theorem two_pow_valuation {x y : UInt64} (hle : r.valuation x ≤ r.valuation y) :
    (2 : r.Elem) ^ (r.split y).1 = 2 ^ ((r.split y).1 - (r.split x).1) * 2 ^ (r.split x).1 := by
  rw [← pow_add, Nat.sub_add_cancel (show (r.split x).1 ≤ (r.split y).1 from hle)]

/-- A combination in which the leads cancel starts one column later. -/
theorem combine_replicate_append {a m x y : UInt64}
    (h : r.value a * r.value y = r.value m * r.value x) (j : ℕ) (xs ys : WordVec) :
    r.combine a (List.replicate j 0 ++ y :: ys) m (List.replicate j 0 ++ x :: xs) =
      List.replicate (j + 1) 0 ++ r.combine a ys m xs := by
  have hzero {x y : UInt64} (h : r.value a * r.value y = r.value m * r.value x) :
      r.residue (a * y - m * x) = 0 := by
    refine (r.value_eq_zero_iff (r.reduced_residue _)).mp ?_
    rw [value_residue, value_word_sub, value_word_mul, value_word_mul, h, sub_self]
  rw [combine, List.zipWith_append (by simp), List.zipWith_replicate', List.zipWith_cons_cons,
    hzero h, hzero (by simp), List.replicate_succ', List.append_assoc]
  rfl

/-- The companion as a whole vector. -/
theorem scale_companion (j : ℕ) (x : UInt64) (xs : WordVec) :
    r.scale (List.replicate j 0 ++ x :: xs) (r.pow2 ((r.width : Int) - r.valuation x)) =
      List.replicate (j + 1) 0 ++ r.companion x xs := by
  have hzero : r.mul x (r.pow2 ((r.width : Int) - r.valuation x)) = 0 := by
    refine r.mul_eq_zero_of_value ?_
    rw [r.value_pow2_sub (r.valuation_le x), r.value_eq_two_pow_mul x, mul_right_comm, ← pow_add, ← valuation,
      Nat.add_sub_cancel' (r.valuation_le x), two_pow_width_eq_zero, zero_mul]
  rw [r.scale_replicate_append, scale, List.map_cons, hzero, List.replicate_succ',
    List.append_assoc]
  rfl

theorem companion_of_odd {x : UInt64} (hx : x &&& 1 = 1) (xs : WordVec) :
    r.companion x xs = List.replicate xs.length 0 := by
  have hodd : r.residue x &&& 1 = 1 := by
    rw [and_one_eq_one_iff, r.residue_mod_two, ← and_one_eq_one_iff, hx]
  have hne : r.residue x ≠ 0 := by
    intro h
    simp [h] at hodd
  have hvaluation : r.valuation x = 0 := by
    rw [valuation, split]
    simp only [if_neg hne, if_pos hodd]
  have hpow : r.value (r.pow2 ((r.width : Int) - r.valuation x)) = 0 := by
    rw [r.value_pow2_sub (r.valuation_le x), hvaluation, Nat.sub_zero, two_pow_width_eq_zero]
  rw [companion, scale, List.eq_replicate_iff]
  refine ⟨by simp, fun y hy => ?_⟩
  obtain ⟨z, -, rfl⟩ := List.mem_map.mp hy
  exact r.mul_eq_zero_of_value (by rw [hpow, mul_zero])

end WordRing

namespace SortedVectors
variable {r : WordRing} {j : ℕ} {front back : List WordVec}

/-- The leads of the vectors stand before column `j`. -/
def EndsBefore (j : ℕ) (front : List WordVec) : Prop := ∀ g ∈ front, g.leadsFrom j = false

theorem endsBefore_nil (j : ℕ) : EndsBefore j [] := List.forall_mem_nil _

theorem EndsBefore.succ (h : EndsBefore j front) : EndsBefore (j + 1) front := by
  intro g hg
  have hbefore := h g hg
  rw [WordVec.leadsFrom] at hbefore ⊢
  cases hlead : g.leadIndex? with
  | none => rfl
  | some i =>
      simp only [hlead, Option.any_some, decide_eq_false_iff_not] at hbefore ⊢
      omega

theorem EndsBefore.append_slot (h : EndsBefore j front) (slot : Option Generator)
    (hslot : ∀ g ∈ slot, g.lead ≠ 0) :
    EndsBefore (j + 1) (front ++ Slots.vectorsFrom j [slot]) := by
  intro v hv
  rcases List.mem_append.mp hv with hv | hv
  · exact h.succ v hv
  · cases slot with
    | none => cases hv
    | some g =>
        obtain rfl := List.mem_singleton.mp hv
        rw [← Generator.vectorAt, Generator.leadsFrom_vectorAt (hslot g rfl)]
        exact decide_eq_false (Nat.not_succ_le_self j)

section
variable (hfront : EndsBefore j front) (hback : ∀ g ∈ back, g.leadsFrom j = true)
include hfront hback

theorem before_append : before j (front ++ back) = front := by
  rw [before, List.takeWhile_append_of_pos fun g hg => by simp [hfront g hg]]
  cases back with
  | nil => simp
  | cons g back => simp [hback g]

theorem behind_append : behind j (front ++ back) = back := by
  rw [behind, List.dropWhile_append_of_pos fun g hg => by simp [hfront g hg]]
  cases back with
  | nil => rfl
  | cons g back => simp [hback g]

end

section
variable {slots : Slots} (h : slots.Aligned)
include h

theorem leadsFrom_of_mem_vectorsFrom {i : ℕ} (hji : j ≤ i) :
    ∀ g ∈ Slots.vectorsFrom i slots, g.leadsFrom j = true := by
  intro g hg
  obtain ⟨k, hk⟩ := h.exists_leadIndex? hg
  rw [WordVec.leadsFrom, hk]
  exact decide_eq_true (hji.trans (Nat.le_add_right i k))

theorem leadIndex?_ne_of_mem_vectorsFrom :
    ∀ g ∈ Slots.vectorsFrom (j + 1) slots, g.leadIndex? ≠ some j := by
  intro g hg heq
  obtain ⟨k, hk⟩ := h.exists_leadIndex? hg
  have := Option.some.inj (heq.symm.trans hk)
  omega

theorem split_vacant (hfront : EndsBefore j front) :
    before j (front ++ Slots.vectorsFrom (j + 1) slots) = front ∧
      behind j (front ++ Slots.vectorsFrom (j + 1) slots) = Slots.vectorsFrom (j + 1) slots := by
  have hback := leadsFrom_of_mem_vectorsFrom h (Nat.le_succ j)
  exact ⟨before_append hfront hback, behind_append hfront hback⟩

theorem place_append (hfront : EndsBefore j front) (v : WordVec) :
    place j v (front ++ Slots.vectorsFrom (j + 1) slots) =
      .ok (front ++ v :: Slots.vectorsFrom (j + 1) slots) := by
  obtain ⟨hbefore, hbehind⟩ := split_vacant h hfront
  have hvacant : ¬ (Slots.vectorsFrom (j + 1) slots).head?.any
      (fun g => g.leadIndex? = some j) = true := by
    cases hvs : Slots.vectorsFrom (j + 1) slots with
    | nil => exact Bool.false_ne_true
    | cons g rest =>
        have hne := leadIndex?_ne_of_mem_vectorsFrom h g (hvs ▸ List.mem_cons_self)
        simpa using hne
  rw [place, hbefore, hbehind, if_neg hvacant]

end

theorem onward_append {α : Type} (call : List WordVec → WordVec → Except SortedFault α)
    (vs : List WordVec) (w : WordVec) :
    onward call j vs (List.replicate (j + 1) 0 ++ w) = call vs (List.replicate (j + 1) 0 ++ w) := by
  rw [onward, if_pos]
  rw [WordVec.leadIndex?_replicate_append]
  cases w.leadIndex? with
  | none => rfl
  | some i => exact decide_eq_true (Nat.lt_add_right i (Nat.lt_succ_self j))

theorem remainder_append {x y : UInt64} (hx : x ≠ 0) (hy : y ≠ 0)
    (hle : r.valuation x ≤ r.valuation y) (xs ys : WordVec) :
    remainder r (List.replicate j 0 ++ x :: xs) (List.replicate j 0 ++ y :: ys) =
      List.replicate (j + 1) 0 ++ r.resolvent x xs y ys := by
  have hcancel : r.value (r.split x).2 * r.value y =
      r.value (r.mul (r.pow2 (((r.split y).1 : Int) - (r.split x).1)) (r.split y).2) *
        r.value x := by
    have hsplit : (r.split x).1 ≤ (r.split y).1 := hle
    rw [r.value_mul, r.value_pow2_sub hsplit, r.value_eq_two_pow_mul x, r.value_eq_two_pow_mul y,
      r.two_pow_valuation hle]
    ring
  rw [remainder, WordVec.leadEntry_replicate_append j hx, WordVec.leadEntry_replicate_append j hy]
  exact r.combine_replicate_append hcancel j xs ys

/-- Storing after the companion. An odd lead takes its companion to zero, so it
makes no difference that the companion is not formed. -/
theorem settle_append (call : List WordVec → WordVec → Except SortedFault (Bool × List WordVec))
    {slots : Slots} (h : slots.Aligned) (hfront : EndsBefore j front) {x : UInt64}
    (hx : x ≠ 0) {xs : WordVec} (hlen : xs.length = slots.length)
    (hcall : call (front ++ Slots.vectorsFrom (j + 1) slots)
        (List.replicate (j + 1) 0 ++ r.companion x xs) =
      .ok ((Slots.insert r slots (r.companion x xs)).1,
        front ++ Slots.vectorsFrom (j + 1) (Slots.insert r slots (r.companion x xs)).2)) :
    settle r call j (List.replicate j 0 ++ x :: xs) (front ++ Slots.vectorsFrom (j + 1) slots) =
      .ok (front ++
        Slots.vectorsFrom j (some ⟨x, xs⟩ :: (Slots.insert r slots (r.companion x xs)).2)) := by
  rw [settle, WordVec.leadEntry_replicate_append j hx]
  by_cases hodd : x &&& 1 = 1
  · rw [if_pos hodd, place_append h hfront, r.companion_of_odd hodd,
      Slots.insert_zeros r hlen.le]
    rfl
  · have hcompanion : (r.companion x xs).length = slots.length := by
      rw [r.length_companion, hlen]
    rw [if_neg hodd, r.scale_companion, hcall]
    exact place_append (h.insert hcompanion).1 hfront _

theorem replicate_append_zero_cons (j : ℕ) (xs : WordVec) :
    List.replicate j 0 ++ 0 :: xs = List.replicate (j + 1) 0 ++ xs := by
  rw [List.replicate_succ', List.append_assoc]
  rfl

theorem leadIndex?_lead (j : ℕ) {x : UInt64} (hx : x ≠ 0) (xs : WordVec) :
    WordVec.leadIndex? (List.replicate j 0 ++ x :: xs) = some j :=
  Generator.leadIndex?_vectorAt (g := ⟨x, xs⟩) hx j

theorem insert_of_leadIndex?_eq_none {v : WordVec} (h : v.leadIndex? = none) (depth : ℕ)
    (vs : List WordVec) : insert r depth vs v = .ok (false, vs) := by
  cases depth with
  | zero => rw [insert, if_pos h]
  | succ depth => rw [insert, h]

section
variable {slots : Slots} (h : slots.Aligned) (hfront : EndsBefore j front)
  {call : List WordVec → WordVec → Except SortedFault (Bool × List WordVec)} {v : WordVec}
include h hfront

theorem meet_last (hnone : slots.all Option.isNone = true) {vs : List WordVec}
    (hsettle : settle r call j v (front ++ Slots.vectorsFrom (j + 1) slots) = .ok vs) :
    meet r call j v (front ++ Slots.vectorsFrom (j + 1) slots) = .ok (true, vs) := by
  have hbehind := (split_vacant h hfront).2.trans (Slots.vectorsFrom_eq_nil_iff.mpr hnone)
  simp only [meet, hbehind, hsettle]
  rfl

theorem meet_ahead (hsome : ¬ slots.all Option.isNone = true) :
    meet r call j v (front ++ Slots.vectorsFrom (j + 1) slots) =
      .ok (true, front ++ v :: Slots.vectorsFrom (j + 1) slots) := by
  obtain ⟨hbefore, hbehind⟩ := split_vacant h hfront
  cases hvs : Slots.vectorsFrom (j + 1) slots with
  | nil => exact (hsome (Slots.vectorsFrom_eq_nil_iff.mp hvs)).elim
  | cons g rest =>
      have hne := leadIndex?_ne_of_mem_vectorsFrom h g (hvs ▸ List.mem_cons_self)
      rw [hvs] at hbefore hbehind
      simp only [meet, hbehind, hbefore, if_pos hne]

variable {g : Generator} (hg : g.lead ≠ 0)
include hg

theorem split_occupied :
    before j (front ++ Slots.vectorsFrom j (some g :: slots)) = front ∧
      behind j (front ++ Slots.vectorsFrom j (some g :: slots)) =
        g.vectorAt j :: Slots.vectorsFrom (j + 1) slots := by
  have hback : ∀ u ∈ g.vectorAt j :: Slots.vectorsFrom (j + 1) slots, u.leadsFrom j = true := by
    refine List.forall_mem_cons.mpr ⟨?_, leadsFrom_of_mem_vectorsFrom h (Nat.le_succ j)⟩
    rw [Generator.leadsFrom_vectorAt hg]
    exact decide_eq_true le_rfl
  exact ⟨before_append hfront hback, behind_append hfront hback⟩

theorem meet_occupied :
    meet r call j v (front ++ Slots.vectorsFrom j (some g :: slots)) =
      if r.valuation v.leadEntry < r.valuation g.lead then do
        let after ← call (← settle r call j v (front ++ Slots.vectorsFrom (j + 1) slots))
          (remainder r v (g.vectorAt j))
        return (true, after.2)
      else
        call (front ++ Slots.vectorsFrom j (some g :: slots)) (remainder r (g.vectorAt j) v) := by
  obtain ⟨hbefore, hbehind⟩ := split_occupied h hfront hg
  simp only [meet, hbehind, hbefore, Generator.leadIndex?_vectorAt hg,
    Generator.leadEntry_vectorAt hg, ne_eq, not_true_eq_false, if_false]

theorem meet_evict (hlt : r.valuation v.leadEntry < r.valuation g.lead) {b : Bool}
    {vs vs' : List WordVec}
    (hsettle : settle r call j v (front ++ Slots.vectorsFrom (j + 1) slots) = .ok vs)
    (hcall : call vs (remainder r v (g.vectorAt j)) = .ok (b, vs')) :
    meet r call j v (front ++ Slots.vectorsFrom j (some g :: slots)) = .ok (true, vs') := by
  rw [meet_occupied h hfront hg, if_pos hlt, hsettle]
  change (do
    let after ← call vs (remainder r v (g.vectorAt j))
    return (true, after.2)) = _
  rw [hcall]
  rfl

end

theorem insert_lead {x : UInt64} (hx : x ≠ 0) (xs : WordVec) (depth : ℕ) (vs : List WordVec) :
    insert r (depth + 1) vs (List.replicate j 0 ++ x :: xs) =
      meet r (onward (insert r depth) j) j (List.replicate j 0 ++ x :: xs) vs := by
  rw [insert, leadIndex?_lead j hx]

/-- From column `j` on, a sorted list is treated as its slots are. -/
theorem insert_append {slots : Slots} (h : slots.Aligned) {v : WordVec}
    (hlen : v.length = slots.length) {depth : ℕ} (hdepth : slots.length ≤ depth)
    (hfront : EndsBefore j front) :
    insert r depth (front ++ Slots.vectorsFrom j slots) (List.replicate j 0 ++ v) =
      .ok ((Slots.insert r slots v).1,
        front ++ Slots.vectorsFrom j (Slots.insert r slots v).2) := by
  induction slots, v using Slots.insert.induct r generalizing j front depth with
  | case1 slot slots xs ih =>
      have hslot := hfront.append_slot slot fun g hg => (h.1 g hg).1
      rw [Slots.insert_zero_cons, replicate_append_zero_cons, Slots.vectorsFrom_cons,
        ← List.append_assoc, ih h.2 (by simpa using hlen) (Nat.le_of_succ_le hdepth) hslot,
        Slots.vectorsFrom_cons j slot (Slots.insert r slots xs).2, List.append_assoc]
  | case2 slots x xs hx hnone ih =>
      obtain ⟨depth, rfl⟩ := Nat.exists_eq_add_one_of_ne_zero (Nat.ne_zero_of_lt hdepth)
      have hxs : xs.length = slots.length := Nat.succ.inj hlen
      rw [insert_lead hx, Slots.insert, if_neg hx]
      simp only [hnone, if_true]
      refine meet_last h.2 hfront hnone (settle_append _ h.2 hfront hx hxs ?_)
      rw [onward_append]
      exact ih h.2 (by rw [r.length_companion, hxs]) (Nat.le_of_succ_le_succ hdepth) hfront.succ
  | case3 slots x xs hx hnone =>
      obtain ⟨depth, rfl⟩ := Nat.exists_eq_add_one_of_ne_zero (Nat.ne_zero_of_lt hdepth)
      rw [insert_lead hx, Slots.insert, if_neg hx]
      simp only [hnone]
      exact meet_ahead h.2 hfront hnone
  | case4 slots x xs hx g hlt after ih₁ =>
      rename_i ih₂
      obtain ⟨depth, rfl⟩ := Nat.exists_eq_add_one_of_ne_zero (Nat.ne_zero_of_lt hdepth)
      have hdepth' : slots.length ≤ depth := Nat.le_of_succ_le_succ hdepth
      have hxs : xs.length = slots.length := Nat.succ.inj hlen
      have hg := h.1 g rfl
      have hcompanion : (r.companion x xs).length = slots.length := by rw [r.length_companion, hxs]
      obtain ⟨hafter, hlength⟩ := h.2.insert (r := r) hcompanion
      have hsettle := settle_append (onward (insert r depth) j) h.2 hfront hx hxs (by
        rw [onward_append]
        exact ih₁ h.2 hcompanion hdepth' hfront.succ)
      have hslot := hfront.append_slot (some ⟨x, xs⟩) fun _ hg' => by
        cases hg'
        exact hx
      have hresolvent := ih₂ hafter (by simp [WordRing.resolvent, after, hlength, hg.2, hxs])
        (hlength.trans_le hdepth') hslot
      rw [insert_lead hx, Slots.insert, if_neg hx]
      simp only [hlt, if_true]
      refine meet_evict h.2 hfront hg.1
        (b := (Slots.insert r after (r.resolvent x xs g.lead g.rest)).1) ?_ hsettle ?_
      · rwa [WordVec.leadEntry_replicate_append j hx]
      · rw [Generator.vectorAt, remainder_append hx hg.1 hlt.le, onward_append,
          Slots.vectorsFrom_cons, ← List.append_assoc, hresolvent, List.append_assoc,
          ← Slots.vectorsFrom_cons]
  | case5 slots x xs hx g hlt ih =>
      obtain ⟨depth, rfl⟩ := Nat.exists_eq_add_one_of_ne_zero (Nat.ne_zero_of_lt hdepth)
      have hg := h.1 g rfl
      have hslot := hfront.append_slot (some g) fun _ hg' => (h.1 _ hg').1
      rw [insert_lead hx, meet_occupied h.2 hfront hg.1, WordVec.leadEntry_replicate_append j hx,
        if_neg hlt, Generator.vectorAt, remainder_append hg.1 hx (Nat.le_of_not_lt hlt),
        onward_append, Slots.vectorsFrom_cons, ← List.append_assoc,
        ih h.2 (by simp [WordRing.resolvent, hg.2, Nat.succ.inj hlen])
          (Nat.le_of_succ_le_succ hdepth) hslot, Slots.insert, if_neg hx]
      simp only [hlt, if_false]
      rw [List.append_assoc, ← Slots.vectorsFrom_cons]
  | case6 slots v hno =>
      obtain ⟨rfl, rfl⟩ := Slots.eq_nil_of_length_eq hlen hno
      rw [Slots.insert_nil, insert_of_leadIndex?_eq_none]
      rw [WordVec.leadIndex?_replicate_append]
      rfl

theorem contains_of_leadIndex?_eq_none {v : WordVec} (h : v.leadIndex? = none) (depth : ℕ)
    (vs : List WordVec) : contains r depth vs v = .ok true := by
  cases depth with
  | zero => rw [contains, if_pos h]
  | succ depth => rw [contains, h]

theorem value_of_coefficient? {x y c : UInt64} (h : coefficient? r x y = some c) :
    r.value 1 * r.value y = r.value c * r.value x := by
  simp only [coefficient?] at h
  split_ifs at h with hlt
  cases hu : r.inverse (r.split x).2 with
  | error e => simp only [hu] at h; cases h
  | ok u =>
      simp only [hu] at h
      obtain rfl := Option.some.inj h
      rw [r.value_one, r.value_mul, r.value_mul, r.value_pow2_sub (Nat.le_of_not_lt hlt),
        r.value_eq_two_pow_mul x, r.value_eq_two_pow_mul y, r.two_pow_valuation (Nat.le_of_not_lt hlt)]
      linear_combination (-(2 : r.Elem) ^ ((r.split y).1 - (r.split x).1) * 2 ^ (r.split x).1 *
        r.value (r.split y).2) * r.value_mul_of_inverse hu

theorem slots_contains_occupied (g : Generator) (slots : Slots) {x : UInt64} (hx : x ≠ 0)
    (xs : WordVec) : Slots.contains r (some g :: slots) (x :: xs) =
      match coefficient? r g.lead x with
      | none => false
      | some c => Slots.contains r slots (r.combine 1 xs c g.rest) := by
  simp only [Slots.contains, coefficient?, if_neg hx]
  split_ifs with hlt
  · rfl
  · cases r.inverse (r.split g.lead).2 <;> rfl

/-- From column `j` on, a vector is reduced by a sorted list as it is by its slots. -/
theorem contains_append {slots : Slots} (h : slots.Aligned) {v : WordVec}
    (hlen : v.length = slots.length) {depth : ℕ} (hdepth : slots.length ≤ depth)
    (hfront : EndsBefore j front) :
    contains r depth (front ++ Slots.vectorsFrom j slots) (List.replicate j 0 ++ v) =
      .ok (Slots.contains r slots v) := by
  induction slots generalizing j front v depth with
  | nil =>
      obtain rfl : v = [] := List.length_eq_zero_iff.mp hlen
      rw [contains_of_leadIndex?_eq_none]
      · rfl
      · rw [WordVec.leadIndex?_replicate_append]
        rfl
  | cons slot slots ih =>
      cases v with
      | nil => cases hlen
      | cons x xs =>
          have hxs : xs.length = slots.length := Nat.succ.inj hlen
          have hslot := hfront.append_slot slot fun g hg => (h.1 g hg).1
          by_cases hx : x = 0
          · subst hx
            rw [Slots.contains_zero_cons, replicate_append_zero_cons, Slots.vectorsFrom_cons,
              ← List.append_assoc, ih h.2 hxs (Nat.le_of_succ_le hdepth) hslot]
          obtain ⟨depth, rfl⟩ := Nat.exists_eq_add_one_of_ne_zero (Nat.ne_zero_of_lt hdepth)
          cases slot with
          | none =>
              rw [Slots.contains_none_cons _ hx]
              simp only [contains, leadIndex?_lead j hx, Slots.vectorsFrom,
                (split_vacant h.2 hfront).2]
              cases hvs : Slots.vectorsFrom (j + 1) slots with
              | nil => rfl
              | cons g rest =>
                  exact if_pos (leadIndex?_ne_of_mem_vectorsFrom h.2 g (hvs ▸ List.mem_cons_self))
          | some g =>
              obtain ⟨hlead, hrest⟩ := h.1 g rfl
              rw [slots_contains_occupied g slots hx]
              simp only [contains, leadIndex?_lead j hx, (split_occupied h.2 hfront hlead).2,
                List.head?_cons, Generator.leadIndex?_vectorAt hlead,
                Generator.leadEntry_vectorAt hlead, WordVec.leadEntry_replicate_append j hx, ne_eq,
                not_true_eq_false, if_false]
              cases hc : coefficient? r g.lead x with
              | none => rfl
              | some c =>
                  change onward _ j _ _ = .ok (Slots.contains r slots _)
                  rw [Generator.vectorAt, r.combine_replicate_append (value_of_coefficient? hc),
                    onward_append, Slots.vectorsFrom_cons, ← List.append_assoc,
                    ih h.2 (by simp [hxs, hrest]) (Nat.le_of_succ_le_succ hdepth) hslot]

end SortedVectors

end AffineRelations
