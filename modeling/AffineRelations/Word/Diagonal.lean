import AffineRelations.Word.Product

/-!
# Diagonal form

Every square matrix `A` over `Z/2^w` becomes diagonal under invertible row and
column operations: `D = T * A * S`, with powers of two on the diagonal of `D`
in ascending order and zeros after them.

Elimination picks the entry of least valuation in the block that is left,
brings it to the corner, clears its column and its row, and divides its odd
part out. Every entry of the block is a multiple of the pivot's power of two,
so no division with remainder occurs. The test for a zero entry is made on the
word itself: an entry that is not reduced and denotes zero can become a pivot,
and then has no odd part to divide by.
-/
namespace AffineRelations

inductive DiagonalError where
  | absent
  | notSquare (rows cols : Nat)
  | identity (cause : WordError)
  | pivot (index : Nat) (cause : WordError)
  deriving DecidableEq, Repr

def DiagonalError.message : DiagonalError → String
  | .absent => "normalform: " ++ (WordError.absent none).message
  | .notSquare rows cols => s!"normalform: matrix is not square: {rows}x{cols}"
  | .identity e => "normalform: " ++ e.message
  | .pivot i e => s!"normalform: pivot ({i},{i}): " ++ e.message

/-- The three matrices of `D = T * A * S`. -/
structure DiagonalForm where
  d : WordMatrix
  t : WordMatrix
  s : WordMatrix
  deriving DecidableEq

namespace DiagonalForm

/-- The valuations on the diagonal. -/
def ranks (f : DiagonalForm) (r : WordRing) : List Nat :=
  (List.range f.d.rows).map fun i => r.valuation (f.d.entry i i)

/-- The number of nonzero entries on the diagonal. -/
def rank (f : DiagonalForm) : Nat :=
  ((List.range f.d.rows).filter fun i => f.d.entry i i != 0).length

def render (f : DiagonalForm) : String :=
  "D:\n" ++ f.d.render ++ "T:\n" ++ f.t.render ++ "S:\n" ++ f.s.render

end DiagonalForm

namespace WordRing

/-- The positions `(i, j)` with `lo ≤ i, j < k`, row after row. -/
def block (lo k : Nat) : List (Nat × Nat) :=
  (List.range' lo (k - lo)).flatMap fun i => (List.range' lo (k - lo)).map fun j => (i, j)

/-- Keeps the candidate of least valuation, and of two equal ones the first. -/
def betterPivot (r : WordRing) (m : WordMatrix) (best : Option (Nat × Nat × Nat))
    (p : Nat × Nat) : Option (Nat × Nat × Nat) :=
  let x := m.entry p.1 p.2
  if x = 0 then best
  else
    let v := r.valuation x
    match best with
    | none => some (v, p)
    | some (u, q) => if v < u then some (v, p) else some (u, q)

/-- The position of the entry of least valuation in the block from `lo` on. -/
def pivot? (r : WordRing) (m : WordMatrix) (lo : Nat) : Option (Nat × Nat) :=
  ((block lo m.rows).foldl (r.betterPivot m) none).map (·.2)

/-- Row `i` becomes `a * row i - c * row p`. -/
def rowCombined (r : WordRing) (m : WordMatrix) (i p : Nat) (a c : UInt64) : WordMatrix :=
  .ofFn m.rows m.cols fun x y =>
    if x = i then r.sub (r.mul a (m.entry i y)) (r.mul c (m.entry p y)) else m.entry x y

/-- Column `j` becomes `a * column j - c * column p`. -/
def colCombined (r : WordRing) (m : WordMatrix) (j p : Nat) (a c : UInt64) : WordMatrix :=
  .ofFn m.rows m.cols fun x y =>
    if y = j then r.sub (r.mul a (m.entry x j)) (r.mul c (m.entry x p)) else m.entry x y

def rowScaled (r : WordRing) (m : WordMatrix) (i : Nat) (c : UInt64) : WordMatrix :=
  .ofFn m.rows m.cols fun x y => if x = i then r.mul c (m.entry i y) else m.entry x y

/-- The factor that takes the pivot's power of two, of exponent `e`, to `x`. -/
def multiplier (r : WordRing) (e : Nat) (x : UInt64) : UInt64 :=
  let v := r.split x
  r.mul (r.pow2 ((v.1 : Int) - e)) v.2

/-- Clears the entry `(i, p)` with the pivot in row `p`, whose power of two has
the exponent `e` and whose odd part is `u`. -/
def clearBelow (r : WordRing) (p e : Nat) (u : UInt64) (f : DiagonalForm) (i : Nat) :
    DiagonalForm :=
  let x := f.d.entry i p
  if x = 0 then f
  else
    let c := r.multiplier e x
    { f with d := r.rowCombined f.d i p u c, t := r.rowCombined f.t i p u c }

/-- Clears the entry `(p, j)` with the pivot in column `p`. -/
def clearRight (r : WordRing) (p e : Nat) (u : UInt64) (f : DiagonalForm) (j : Nat) :
    DiagonalForm :=
  let x := f.d.entry p j
  if x = 0 then f
  else
    let c := r.multiplier e x
    { f with d := r.colCombined f.d j p u c, s := r.colCombined f.s j p u c }

/-- Brings the entry at `q` to the corner `(p, p)`. -/
def movePivot (f : DiagonalForm) (p : Nat) (q : Nat × Nat) : DiagonalForm :=
  { d := (f.d.rowsExchanged p q.1).colsExchanged p q.2
    t := f.t.rowsExchanged p q.1
    s := f.s.colsExchanged p q.2 }

/-- The positions after `p` in a matrix of `k` rows. -/
def after (p k : Nat) : List Nat := List.range' (p + 1) (k - (p + 1))

/-- Finishes the corner `(p, p)`, with the pivot found at `q`. -/
def eliminate (r : WordRing) (f : DiagonalForm) (p : Nat) (q : Nat × Nat) :
    Except DiagonalError DiagonalForm :=
  let f := movePivot f p q
  let v := r.split (f.d.entry p p)
  let f := (after p f.d.rows).foldl (r.clearBelow p v.1 v.2) f
  let f := (after p f.d.rows).foldl (r.clearRight p v.1 v.2) f
  match r.inverse v.2 with
  | .ok u => .ok { f with d := r.rowScaled f.d p u, t := r.rowScaled f.t p u }
  | .error e => .error (.pivot p e)

/-- Finishes the corners `p, p + 1, ...`, of which `n` are left. -/
def diagonalizeFrom (r : WordRing) (f : DiagonalForm) (p : Nat) :
    (n : Nat) → Except DiagonalError DiagonalForm
  | 0 => .ok f
  | n + 1 => match r.pivot? f.d p with
    | none => .ok f
    | some q => match r.eliminate f p q with
      | .ok f => r.diagonalizeFrom f (p + 1) n
      | .error e => .error e

/-- The diagonal form of a square matrix. -/
def diagonalize (r : WordRing) (a : WordMatrix) : Except DiagonalError DiagonalForm :=
  if a.rows ≠ a.cols then .error (.notSquare a.rows a.cols)
  else match identity a.rows with
    | .ok i => r.diagonalizeFrom ⟨a, i, i⟩ 0 a.rows
    | .error e => .error (.identity e)

/-- The diagonal form of a matrix that may be absent. -/
def diagonalize? (r : WordRing) (a : Option WordMatrix) : Except DiagonalError DiagonalForm :=
  match a with
  | some a => r.diagonalize a
  | none => .error .absent

end WordRing

end AffineRelations
