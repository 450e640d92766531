import AffineRelations.Word.Vec

/-!
# Matrices of words

A matrix keeps its entries row after row in one array. Only the matrix without
rows and columns is empty; the checked constructors below refuse every other
shape with a zero side. Entries are words and need not be reduced.

The view of a matrix is `entry`. A matrix made by `ofFn` has the entries that
the function gives, and two matrices of one shape are equal when their entries
are.
-/
namespace AffineRelations

structure WordMatrix where
  rows : Nat
  cols : Nat
  entries : Array UInt64
  size_eq : entries.size = rows * cols
  deriving DecidableEq

namespace WordMatrix

/-- The entry in row `i` and column `j`. -/
def entry (m : WordMatrix) (i j : Nat) : UInt64 := m.entries.getD (i * m.cols + j) 0

def ofFn (rows cols : Nat) (f : Nat → Nat → UInt64) : WordMatrix where
  rows := rows
  cols := cols
  entries := Array.ofFn (n := rows * cols) fun k => f (k.1 / cols) (k.1 % cols)
  size_eq := Array.size_ofFn

@[simp] theorem rows_ofFn (rows cols : Nat) (f : Nat → Nat → UInt64) :
    (ofFn rows cols f).rows = rows := rfl

@[simp] theorem cols_ofFn (rows cols : Nat) (f : Nat → Nat → UInt64) :
    (ofFn rows cols f).cols = cols := rfl

theorem flat_lt {i j rows cols : Nat} (hi : i < rows) (hj : j < cols) :
    i * cols + j < rows * cols := by
  have h : (i + 1) * cols ≤ rows * cols := Nat.mul_le_mul_right cols hi
  rw [Nat.add_one_mul] at h
  omega

theorem entry_ofFn {rows cols : Nat} (f : Nat → Nat → UInt64) {i j : Nat}
    (hi : i < rows) (hj : j < cols) : (ofFn rows cols f).entry i j = f i j := by
  have hc : 0 < cols := by omega
  have hd : (i * cols + j) / cols = i := by
    rw [Nat.add_comm, Nat.add_mul_div_right _ _ hc, Nat.div_eq_of_lt hj, Nat.zero_add]
  have hm : (i * cols + j) % cols = j := by
    rw [Nat.add_comm, Nat.add_mul_mod_self_right, Nat.mod_eq_of_lt hj]
  simp [entry, ofFn, Array.getD, flat_lt hi hj, hd, hm]

/-- The matrix without rows and columns. -/
def empty : WordMatrix := ⟨0, 0, #[], rfl⟩

def isSquare (m : WordMatrix) : Bool := m.rows == m.cols

def rowVec (m : WordMatrix) (i : Nat) : WordVec := (List.range m.cols).map (m.entry i)

def toRows (m : WordMatrix) : List WordVec := (List.range m.rows).map m.rowVec

def renderRow (v : WordVec) : String :=
  "[" ++ String.intercalate " " (v.map fun x => toString x.toNat) ++ "]\n"

def render (m : WordMatrix) : String := String.join (m.toRows.map renderRow)

/-- Replaces one entry. -/
def setEntry (m : WordMatrix) (i j : Nat) (x : UInt64) : WordMatrix :=
  { m with entries := m.entries.setIfInBounds (i * m.cols + j) x
           size_eq := by simp [m.size_eq] }

/-- Whether `(i, j)` names an entry. -/
def Inside (m : WordMatrix) (i j : Int) : Prop :=
  (0 ≤ i ∧ i < m.rows) ∧ (0 ≤ j ∧ j < m.cols)

instance (m : WordMatrix) (i j : Int) : Decidable (m.Inside i j) :=
  inferInstanceAs (Decidable ((0 ≤ i ∧ i < m.rows) ∧ (0 ≤ j ∧ j < m.cols)))

def read (m : WordMatrix) (i j : Int) : Except WordError UInt64 :=
  if m.Inside i j then .ok (m.entry i.toNat j.toNat) else .error (.outside .read i j)

def write (m : WordMatrix) (i j : Int) (x : UInt64) : Except WordError WordMatrix :=
  if m.Inside i j then .ok (m.setEntry i.toNat j.toNat x) else .error (.outside .write i j)

def row (m : WordMatrix) (i : Int) : Except WordError WordVec :=
  if 0 ≤ i ∧ i < m.rows then .ok (m.rowVec i.toNat) else .error (.outside .row i 0)

/-- The zero matrix of a shape. -/
def zeros (rows cols : Int) : Except WordError WordMatrix :=
  if 0 < rows ∧ 0 < cols then .ok (ofFn rows.toNat cols.toNat fun _ _ => 0)
  else .error (.emptyShape none)

/-- Writes a row of words from column `j` on, and stops at the matrix's edge. -/
def writeRow (m : WordMatrix) (i j : Nat) : WordVec → Except WordError WordMatrix
  | [] => .ok m
  | x :: xs => match m.write i j x with
    | .ok m => m.writeRow i (j + 1) xs
    | .error e => .error e

def writeRows (m : WordMatrix) (i : Nat) : List WordVec → Except WordError WordMatrix
  | [] => .ok m
  | v :: vs => match m.writeRow i 0 v with
    | .ok m => m.writeRows (i + 1) vs
    | .error e => .error e

/-- The matrix with the given words, as wide as the first row. A shorter row is
filled with zeros, a longer one is refused. -/
def ofWords (vs : List WordVec) : Except WordError WordMatrix :=
  match zeros vs.length (vs.headD []).length with
  | .ok m => m.writeRows 0 vs
  | .error e => .error e

/-- The matrix as it is after two of its rows change places. -/
def rowsExchanged (m : WordMatrix) (i k : Nat) : WordMatrix :=
  ofFn m.rows m.cols fun x y => m.entry (if x = i then k else if x = k then i else x) y

/-- The matrix as it is after two of its columns change places. -/
def colsExchanged (m : WordMatrix) (j k : Nat) : WordMatrix :=
  ofFn m.rows m.cols fun x y => m.entry x (if y = j then k else if y = k then j else y)

end WordMatrix

namespace WordRing

/-- The matrix of signed rows, which must have one length. -/
def matrixOfRows (r : WordRing) (rows : List (List Int64)) : Except WordError WordMatrix :=
  let cols := (rows.headD []).length
  if cols = 0 then .error (.emptyShape (some .ofRows))
  else match rows.zipIdx.find? fun p => p.1.length != cols with
    | some (v, i) => .error (.raggedRow i v.length cols)
    | none => .ok (.ofFn rows.length cols fun i j => r.ofInt64 ((rows.getD i []).getD j 0))

/-- The identity matrix of size `k`. -/
def identityOf (k : Nat) : WordMatrix := .ofFn k k fun i j => if i = j then 1 else 0

def identity (k : Int) : Except WordError WordMatrix :=
  if 0 < k then .ok (identityOf k.toNat) else .error (.emptyShape (some .identity))

end WordRing

end AffineRelations
