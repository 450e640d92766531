import AffineRelations.Word.Matrix

/-!
# Products

Vectors are rows and stand on the left of a matrix. A product is summed up in
place, row by row: the words of the result start at zero, and a multiple of a
row of the right factor is added onto them, with every sum reduced at once. A
row whose multiple is zero is passed over. The product with a vector tests the
reduced coordinate for that, the product of two matrices the word itself.

A product is also offered for operands that may be absent, since a register or
a list of matrices can have gaps.
-/
namespace AffineRelations.WordRing

/-- Adds `c` times row `k` of `m` onto the words of `out` that stand from
position `start` on, and reduces every sum. -/
def addRow (r : WordRing) (m : WordMatrix) (k : Nat) (c : UInt64) (start : Nat)
    (out : Array UInt64) : Array UInt64 :=
  (List.range m.cols).foldl
    (fun out j => out.modify (start + j) fun x => r.residue (x + c * m.entry k j)) out

/-- The turn of row `i` in the product with the vector `v`. -/
def addCoordinate (r : WordRing) (m : WordMatrix) (v : WordVec) (out : Array UInt64) (i : Nat) :
    Array UInt64 :=
  let c := r.residue (v.getD i 0)
  if c = 0 then out else r.addRow m i c 0 out

/-- The row vector `v * m`: the sum of the rows of `m`, each times its
coordinate of `v`. -/
def apply (r : WordRing) (m : WordMatrix) (v : WordVec) : WordVec :=
  ((List.range m.rows).foldl (r.addCoordinate m v) (Array.replicate m.cols 0)).toList

def vecMul (r : WordRing) (m : WordMatrix) (v : WordVec) : Except WordError WordVec :=
  if v.length = m.rows then .ok (r.apply m v) else .error (.vecMulLength v.length m.rows)

/-- `v * m` for a matrix that may be absent. -/
def vecMul? (r : WordRing) (m : Option WordMatrix) (v : WordVec) : Except WordError WordVec :=
  match m with
  | some m => r.vecMul m v
  | none => .error (.absent (some .vecMul))

/-- The turn of the entry `(i, k)` of `a` in row `i` of the product. -/
def addEntry (r : WordRing) (a b : WordMatrix) (i : Nat) (out : Array UInt64) (k : Nat) :
    Array UInt64 :=
  let c := a.entry i k
  if c = 0 then out else r.addRow b k c (i * b.cols) out

/-- Row `i` of the product. -/
def addEntries (r : WordRing) (a b : WordMatrix) (out : Array UInt64) (i : Nat) : Array UInt64 :=
  (List.range a.cols).foldl (r.addEntry a b i) out

theorem size_foldl_of_step {f : Array UInt64 → Nat → Array UInt64}
    (hf : ∀ out i, (f out i).size = out.size) (is : List Nat) (out : Array UInt64) :
    (is.foldl f out).size = out.size := by
  induction is generalizing out with
  | nil => rfl
  | cons i is ih => rw [List.foldl_cons, ih, hf]

@[simp] theorem size_addRow (r : WordRing) (m : WordMatrix) (k : Nat) (c : UInt64) (start : Nat)
    (out : Array UInt64) : (r.addRow m k c start out).size = out.size :=
  size_foldl_of_step (fun _ _ => Array.size_modify) _ _

@[simp] theorem size_addCoordinate (r : WordRing) (m : WordMatrix) (v : WordVec)
    (out : Array UInt64) (i : Nat) : (r.addCoordinate m v out i).size = out.size := by
  rw [addCoordinate]
  split
  · rfl
  · simp

@[simp] theorem size_addEntry (r : WordRing) (a b : WordMatrix) (i : Nat) (out : Array UInt64)
    (k : Nat) : (r.addEntry a b i out k).size = out.size := by
  rw [addEntry]
  split
  · rfl
  · simp

@[simp] theorem size_addEntries (r : WordRing) (a b : WordMatrix) (out : Array UInt64) (i : Nat) :
    (r.addEntries a b out i).size = out.size :=
  size_foldl_of_step (r.size_addEntry a b i) _ _

@[simp] theorem length_apply (r : WordRing) (m : WordMatrix) (v : WordVec) :
    (r.apply m v).length = m.cols :=
  (size_foldl_of_step (r.size_addCoordinate m v) _ _).trans Array.size_replicate

/-- The product of two matrices of fitting shapes. -/
def multiply (r : WordRing) (a b : WordMatrix) : WordMatrix where
  rows := a.rows
  cols := b.cols
  entries := (List.range a.rows).foldl (r.addEntries a b) (Array.replicate (a.rows * b.cols) 0)
  size_eq := (size_foldl_of_step (r.size_addEntries a b) _ _).trans Array.size_replicate

def matMul (r : WordRing) (a b : WordMatrix) : Except WordError WordMatrix :=
  if a.cols ≠ b.rows then .error (.mulShape a.rows a.cols b.rows b.cols)
  else if a.rows = 0 ∨ b.cols = 0 then .error (.emptyShape (some .mul))
  else .ok (r.multiply a b)

def matMul? (r : WordRing) (a b : Option WordMatrix) : Except WordError WordMatrix :=
  match a, b with
  | some a, some b => r.matMul a b
  | _, _ => .error (.absent (some .mul))

/-- Multiplies further matrices onto `acc` from the right. -/
def composeOnto (r : WordRing) (acc : WordMatrix) :
    List (Option WordMatrix) → Except WordError WordMatrix
  | [] => .ok acc
  | m :: ms => match r.matMul? (some acc) m with
    | .ok acc => r.composeOnto acc ms
    | .error e => .error e

/-- The product of a list of matrices, first factor first. The first factor has
to be there; `none` says that it is a gap. -/
def compose (r : WordRing) (ms : List (Option WordMatrix)) :
    Option (Except WordError WordMatrix) :=
  match ms with
  | [] => some (.error (.absent none))
  | none :: _ => none
  | some m :: ms => some (r.composeOnto m ms)

/-- The vectors that a vector runs through when it is multiplied by one matrix
after another. -/
def trajectory (r : WordRing) (v : WordVec) : List WordMatrix → Except WordError (List WordVec)
  | [] => .ok []
  | m :: ms => match r.vecMul m v with
    | .error e => .error e
    | .ok u => match r.trajectory u ms with
      | .error e => .error e
      | .ok us => .ok (u :: us)

/-- How a failed composition is reported. -/
def composeMessage (e : WordError) : String := "transition: Compose: " ++ e.message

end AffineRelations.WordRing
