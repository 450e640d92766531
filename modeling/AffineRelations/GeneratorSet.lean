import AffineRelations.Word.Vec

/-!
# Generator sets

A generator set of dimension `n` has one slot for each column. The slot of
column `j` is vacant or holds a generator whose lead stands in column `j`; of
the generator it keeps the lead and the coordinates to the right of it, since
those to the left are zero. So the leads form a staircase, and a vector is
reduced against the set by one walk from left to right.

Inserting a vector walks to the column of its lead. If the slot is vacant the
vector settles there. If not, the one whose lead has the lower valuation
settles, and a multiple of it takes the other one's lead to zero; what is left
of the other goes on to the columns on the right. A vector with an even lead
also has a companion, its least multiple by a power of two whose lead is zero.
The companion is inserted with it when the vector takes over a slot, or when
all slots to the right are vacant.
-/
namespace AffineRelations

/-- A generator from its lead on. -/
structure Generator where
  lead : UInt64
  rest : WordVec
  deriving DecidableEq, Repr

abbrev Slots := List (Option Generator)

/-- The coordinates to the right of the lead `x` after scaling by the least
power of two that takes the lead to zero. For an odd lead they are zeros. -/
def WordRing.companion (r : WordRing) (x : UInt64) (xs : WordVec) : WordVec :=
  r.scale xs (r.pow2 ((r.width : Int) - r.valuation x))

/-- The coordinates to the right of the lead that are left of `⟨y, ys⟩` after a
multiple of `⟨x, xs⟩` has taken its lead to zero. The valuation of `x` must not
exceed that of `y`. -/
def WordRing.resolvent (r : WordRing) (x : UInt64) (xs : WordVec) (y : UInt64) (ys : WordVec) :
    WordVec :=
  let a := r.split x
  let b := r.split y
  r.combine a.2 ys (r.mul (r.pow2 ((b.1 : Int) - a.1)) b.2) xs

theorem WordRing.length_companion (r : WordRing) (x : UInt64) (xs : WordVec) :
    (r.companion x xs).length = xs.length := by simp [companion]

theorem WordRing.length_resolvent_le_left (r : WordRing) (x : UInt64) (xs : WordVec) (y : UInt64)
    (ys : WordVec) : (r.resolvent x xs y ys).length ≤ xs.length := by
  simp only [resolvent, length_combine]
  exact Nat.min_le_right _ _

theorem WordRing.length_resolvent_le_right (r : WordRing) (x : UInt64) (xs : WordVec)
    (y : UInt64) (ys : WordVec) : (r.resolvent x xs y ys).length ≤ ys.length := by
  simp only [resolvent, length_combine]
  exact Nat.min_le_left _ _

namespace Slots

/-- Inserts the coordinates from the first slot's column on. The flag says that
a slot was taken, or taken over. -/
def insert (r : WordRing) : Slots → WordVec → Bool × Slots
  | slot :: slots, x :: xs =>
    if x = 0 then
      let after := insert r slots xs
      (after.1, slot :: after.2)
    else match slot with
      | none =>
        if slots.all Option.isNone then
          (true, some ⟨x, xs⟩ :: (insert r slots (r.companion x xs)).2)
        else (true, some ⟨x, xs⟩ :: slots)
      | some g =>
        if r.valuation x < r.valuation g.lead then
          let after := (insert r slots (r.companion x xs)).2
          (true, some ⟨x, xs⟩ :: (insert r after (r.resolvent x xs g.lead g.rest)).2)
        else
          let after := insert r slots (r.resolvent g.lead g.rest x xs)
          (after.1, some g :: after.2)
  | slots, _ => (false, slots)
  termination_by _ v => v.length
  decreasing_by
    all_goals first
      | simp only [List.length_cons]; omega
      | simp only [List.length_cons, WordRing.length_companion]; omega
      | have := r.length_resolvent_le_left x xs g.lead g.rest
        simp only [List.length_cons]; omega
      | have := r.length_resolvent_le_right g.lead g.rest x xs
        simp only [List.length_cons]; omega

/-- Whether the walk takes every coordinate to zero. -/
def contains (r : WordRing) : Slots → WordVec → Bool
  | slot :: slots, x :: xs =>
    if x = 0 then contains r slots xs
    else match slot with
      | none => false
      | some g =>
        let a := r.split g.lead
        let b := r.split x
        if b.1 < a.1 then false
        else match r.inverse a.2 with
          | .error _ => false
          | .ok u =>
            let c := r.mul (r.mul (r.pow2 ((b.1 : Int) - a.1)) b.2) u
            contains r slots (r.combine 1 xs c g.rest)
  | _, xs => WordVec.isZero xs

/-- The generators with all coordinates, for slots that start at column `j`. -/
def vectorsFrom (j : Nat) : Slots → List WordVec
  | [] => []
  | none :: slots => vectorsFrom (j + 1) slots
  | some g :: slots => (List.replicate j 0 ++ g.lead :: g.rest) :: vectorsFrom (j + 1) slots

end Slots

structure GeneratorSet where
  ring : WordRing
  slots : Slots
  deriving DecidableEq

/-- A vector does not have the dimension of the set that it is offered to. -/
structure DimensionError where
  length : Nat
  dim : Nat
  deriving DecidableEq, Repr

def DimensionError.message (e : DimensionError) : String :=
  s!"genset: Insert: len(v)={e.length}, dim={e.dim}: ring: dimension mismatch"

namespace GeneratorSet

/-- The set without generators. -/
def empty (r : WordRing) (dim : Nat) : GeneratorSet := ⟨r, List.replicate dim none⟩

/-- The empty set of a dimension that is not negative. -/
def empty? (r : WordRing) (dim : Int) : Option GeneratorSet :=
  if 0 ≤ dim then some (empty r dim.toNat) else none

def dim (s : GeneratorSet) : Nat := s.slots.length

/-- The generators in the order of their leads. -/
def vectors (s : GeneratorSet) : List WordVec := Slots.vectorsFrom 0 s.slots

def size (s : GeneratorSet) : Nat := s.vectors.length

/-- Inserts a vector. The flag says whether the set changed. -/
def insert (s : GeneratorSet) (v : WordVec) : Except DimensionError (Bool × GeneratorSet) :=
  if v.length = s.dim then
    let after := Slots.insert s.ring s.slots v
    .ok (after.1, { s with slots := after.2 })
  else .error ⟨v.length, s.dim⟩

/-- Whether the generators reduce the vector to zero. -/
def contains (s : GeneratorSet) (v : WordVec) : Bool :=
  v.length == s.dim && Slots.contains s.ring s.slots v

/-- One generator a line, with the position of its lead. -/
def render (s : GeneratorSet) : String :=
  match s.vectors with
  | [] => "\x7b\x7d"
  | vs => String.join (vs.map fun v => v.renderLead ++ "\n")

end GeneratorSet

end AffineRelations
