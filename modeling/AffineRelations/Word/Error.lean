/-!
# Failures of word arithmetic

One constructor for each way in which an operation on words, vectors or
matrices can be refused, and one function with the wording. A cause carries
the numbers that its wording shows and nothing else.
-/
namespace AffineRelations

/-- Matrix operations that name themselves when they are refused. -/
inductive MatrixOperation where
  | identity | vecMul | mul | ofRows
  deriving DecidableEq, Repr

def MatrixOperation.label : MatrixOperation → String
  | .identity => "Identity"
  | .vecMul => "MatVec"
  | .mul => "Mul"
  | .ofRows => "FromRows"

/-- Accesses that check their indices first. -/
inductive MatrixAccess where
  | read | write | row
  deriving DecidableEq, Repr

def MatrixAccess.label : MatrixAccess → String
  | .read => "At"
  | .write => "Set"
  | .row => "Row"

inductive WordError where
  /-- The width is not one of 1, ..., 64. -/
  | width (bits : Int)
  /-- An even word has no inverse. -/
  | notUnit
  /-- A matrix needs at least one row and one column. -/
  | emptyShape (during : Option MatrixOperation)
  | outside (access : MatrixAccess) (row col : Int)
  /-- Two vectors of different lengths have no linear combination. -/
  | combination
  | vecMulLength (length rows : Nat)
  | mulShape (rows cols rows' cols' : Nat)
  | raggedRow (row length expected : Nat)
  /-- A matrix was expected and none was given. -/
  | absent (during : Option MatrixOperation)
  deriving DecidableEq, Repr

/-- The text in front of a cause: the operation's own name, if it has one. -/
def duringLabel : Option MatrixOperation → String
  | none => ""
  | some op => op.label ++ ": "

def WordError.message : WordError → String
  | .width bits => s!"ring: word size out of range: {bits}"
  | .notUnit => "Inverse: ring: element is not a unit"
  | .emptyShape op => duringLabel op ++ "ring: dimensions must be > 0"
  | .outside access i j => s!"Matrix.{access.label}({i},{j}): ring: index out of range"
  | .combination => "Combine: ring: dimension mismatch"
  | .vecMulLength n rows => s!"MatVec: len(v)={n}, rows={rows}: ring: dimension mismatch"
  | .mulShape a b c d => s!"Mul: {a}x{b} · {c}x{d}: ring: dimension mismatch"
  | .raggedRow i n k => s!"FromRows: row {i} has {n} entries, want {k}: ring: dimension mismatch"
  | .absent op => duringLabel op ++ "ring: nil matrix"

end AffineRelations
