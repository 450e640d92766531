import AffineRelations.Expr.Basic
import AffineRelations.Word.Product

/-!
# Statement matrices

A state of `n` variables is the row vector `(1, x_1, ..., x_n)`, and a
statement acts on it by a matrix of size `n + 1`. An assignment whose right
side is affine has one matrix. If the right side is not affine the variable may
get any value; two matrices, which set it to 0 and to 1, generate all of them.
Every other statement leaves the state alone.

A right side is recognised as affine if it is made by sums and differences of
numbers, tracked variables and products of a number and a tracked variable,
where no difference has a sum or a difference as its right operand.
-/
namespace AffineRelations

/-- The column of a tracked variable; column 0 is the constant one. -/
def slot? (vars : List String) (x : String) : Option Nat :=
  (vars.idxOf? x).map (· + 1)

/-- Factor and variable of a product that has one of each. -/
def factor? : Expr → Expr → Option (Int64 × String)
  | .num c, .var x => some (c, x)
  | .var x, .num c => some (c, x)
  | _, _ => none

namespace WordRing

/-- The vector of length `n` with `c` or, if asked for, `-c` in slot `i`. -/
def term (r : WordRing) (n i : Nat) (c : Int64) (negative : Bool) : WordVec :=
  let x := r.ofInt64 c
  let y := if negative then r.neg x else x
  (List.range n).map fun j => if j = i then r.add 0 y else 0

def addVec (r : WordRing) (u v : WordVec) : WordVec := List.zipWith r.add u v

/-- The coefficients of an affine expression, with the constant in slot 0, or of
its negative. -/
def coefficients? (r : WordRing) (vars : List String) : Bool → Expr → Option WordVec
  | negative, .num c => some (r.term (vars.length + 1) 0 c negative)
  | negative, .var x =>
    (slot? vars x).map fun i => r.term (vars.length + 1) i 1 negative
  | negative, .bin .mul a b => do
    let (c, x) ← factor? a b
    let i ← slot? vars x
    return r.term (vars.length + 1) i c negative
  | negative, .bin .add a b => do
    let u ← r.coefficients? vars negative a
    let v ← r.coefficients? vars negative b
    return r.addVec u v
  | negative, .bin .sub a b =>
    if b.isAdditive then none
    else do
      let u ← r.coefficients? vars negative a
      let v ← r.coefficients? vars (!negative) b
      return r.addVec u v
  | _, _ => none

/-- The coefficients of an affine expression. -/
def affine? (r : WordRing) (vars : List String) (e : Expr) : Option WordVec :=
  r.coefficients? vars false e

/-- The identity matrix of size `n` with column `k` replaced. -/
def withColumn (n k : Nat) (col : WordVec) : WordMatrix :=
  .ofFn n n fun i j => if j = k then col.getD i 0 else if i = j then 1 else 0

/-- The matrices of a statement; an edge may also have none. -/
def statementMatrices (r : WordRing) (vars : List String) (stmt : Option Expr) :
    List WordMatrix :=
  let n := vars.length + 1
  match stmt.bind Expr.assignment? with
  | none => [identityOf n]
  | some (x, value) => match slot? vars x with
    | none => [identityOf n]
    | some k => match r.affine? vars value with
      | some col => [withColumn n k col]
      | none => [withColumn n k [], withColumn n k [1]]

/-- What affinity is asked of: the right side of an assignment to a variable,
or else the whole expression. -/
def affineSide? (r : WordRing) (vars : List String) (stmt : Option Expr) : Option WordVec :=
  stmt.bind fun e => match e.assignment? with
    | some (_, value) => r.affine? vars value
    | none => r.affine? vars e

end WordRing

/-- The matrix that a number picks from a list, counted round. -/
def pickMatrix? (ms : List WordMatrix) (pick : Int) : Option WordMatrix :=
  let k := pick.tmod ms.length
  if 0 ≤ k then ms[k.toNat]? else none

end AffineRelations
