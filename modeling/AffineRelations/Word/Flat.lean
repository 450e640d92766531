import AffineRelations.Word.Matrix

/-!
# Access by flat offset

The entry in row `i` and column `j` has the offset `i * cols + j`, computed in
64-bit arithmetic. An access by offset does not look at the two indices: it
fails only if the offset is outside the array, so an index beyond the end of a
row reaches into a later row.
-/
namespace AffineRelations.WordMatrix

/-- The offset of `(i, j)`, if it is one of the array. -/
def offset? (m : WordMatrix) (i j : Int) : Option Nat :=
  let k := Int.bmod (i * m.cols + j) 18446744073709551616
  if 0 ≤ k ∧ k < m.entries.size then some k.toNat else none

def flatRead? (m : WordMatrix) (i j : Int) : Option UInt64 :=
  (m.offset? i j).map fun k => m.entries.getD k 0

def flatSet (m : WordMatrix) (k : Nat) (x : UInt64) : WordMatrix :=
  { m with entries := m.entries.setIfInBounds k x, size_eq := by simp [m.size_eq] }

def flatWrite? (m : WordMatrix) (i j : Int) (x : UInt64) : Option WordMatrix :=
  (m.offset? i j).map fun k => m.flatSet k x

/-- Exchanges two entries, if both offsets are inside. -/
def flatSwap? (m : WordMatrix) (p q : Int × Int) : Option WordMatrix :=
  match m.offset? p.1 p.2, m.offset? q.1 q.2 with
  | some a, some b => some ((m.flatSet a (m.entries.getD b 0)).flatSet b (m.entries.getD a 0))
  | _, _ => none

/-- Exchanges pair after pair up to the first that is not inside. The flag says
that all were. -/
def flatSwaps (m : WordMatrix) : List ((Int × Int) × (Int × Int)) → WordMatrix × Bool
  | [] => (m, true)
  | (p, q) :: rest => match m.flatSwap? p q with
    | some m => m.flatSwaps rest
    | none => (m, false)

def swapRows (m : WordMatrix) (i k : Int) : WordMatrix × Bool :=
  if i = k then (m, true)
  else m.flatSwaps ((List.range m.cols).map fun (j : Nat) => ((i, (j : Int)), (k, (j : Int))))

def swapCols (m : WordMatrix) (j k : Int) : WordMatrix × Bool :=
  if j = k then (m, true)
  else m.flatSwaps ((List.range m.rows).map fun (i : Nat) => (((i : Int), j), ((i : Int), k)))

end AffineRelations.WordMatrix
