import AffineRelations.Word.Ring

/-!
# Vectors of words

A vector is the list of its coordinates. Coordinates are words and need not be
reduced; the lead of a vector is its first coordinate that is not the word
zero.
-/
namespace AffineRelations

abbrev WordVec := List UInt64

namespace WordVec

def isZero (v : WordVec) : Bool := v.all (· == 0)

/-- Position of the first nonzero coordinate. -/
def leadIndex? (v : WordVec) : Option Nat := v.findIdx? (· != 0)

/-- The first nonzero coordinate, and zero if there is none. -/
def leadEntry (v : WordVec) : UInt64 := (v.find? (· != 0)).getD 0

def render (v : WordVec) : String :=
  "(" ++ String.intercalate ", " (v.map fun x => toString x.toNat) ++ ")"

/-- A vector with the position of its lead, which is -1 for the zero vector. -/
def renderLead (v : WordVec) : String :=
  v.render ++ "@" ++ (match v.leadIndex? with
    | some i => toString i
    | none => "-1")

/-- The `i`-th unit vector of length `n`. -/
def unit (n i : Nat) : WordVec := (List.range n).map fun j => if j = i then 1 else 0

end WordVec

namespace WordRing

def vecOfInt64 (r : WordRing) (cs : List Int64) : WordVec := cs.map r.ofInt64

def scale (r : WordRing) (v : WordVec) (c : UInt64) : WordVec := v.map (r.mul · c)

/-- `a * u - b * v`, as far as both vectors reach. -/
def combine (r : WordRing) (a : UInt64) (u : WordVec) (b : UInt64) (v : WordVec) : WordVec :=
  List.zipWith (fun x y => r.residue (a * x - b * y)) u v

/-- `a * u - b * v` for vectors of one length. -/
def combine? (r : WordRing) (a : UInt64) (u : WordVec) (b : UInt64) (v : WordVec) :
    Except WordError WordVec :=
  if u.length = v.length then .ok (r.combine a u b v) else .error .combination

@[simp] theorem length_scale (r : WordRing) (v : WordVec) (c : UInt64) :
    (r.scale v c).length = v.length := by simp [scale]

@[simp] theorem length_combine (r : WordRing) (a : UInt64) (u : WordVec) (b : UInt64)
    (v : WordVec) : (r.combine a u b v).length = min u.length v.length := by simp [combine]

end WordRing

end AffineRelations
