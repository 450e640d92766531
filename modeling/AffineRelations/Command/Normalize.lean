import AffineRelations.Command.Basic
import AffineRelations.Command.Options
import AffineRelations.Text.Words

/-!
# The command that brings a matrix into diagonal form

The matrix is given as text, with semicolons between rows and commas between
entries. Rows without any text are passed over.
-/
namespace AffineRelations

namespace MatrixText

/-- The entries of a row from column `j` on. -/
def readRow (i : Nat) : (j : Nat) → List (List Char) → Except MatrixTextError (List Int64)
  | _, [] => .ok []
  | j, field :: rest =>
    let text := String.ofList (Text.trim field)
    match Text.readInteger text with
    | .error e => .error (.entry i j text e)
    | .ok n => match readRow i (j + 1) rest with
      | .error e => .error e
      | .ok row => .ok (Int64.ofInt n :: row)

/-- The rows from row `i` on. -/
def readRows : (i : Nat) → List (List Char) → Except MatrixTextError (List (List Int64))
  | _, [] => .ok []
  | i, line :: rest =>
    let line := Text.trim line
    if line.isEmpty then readRows (i + 1) rest
    else match readRow i 0 (Text.pieces ',' line) with
      | .error e => .error e
      | .ok row => match readRows (i + 1) rest with
        | .error e => .error e
        | .ok rows => .ok (row :: rows)

def read (r : WordRing) (text : String) : Except MatrixTextError WordMatrix :=
  match readRows 0 (Text.pieces ';' text.toList) with
  | .error e => .error e
  | .ok rows => (r.matrixOfRows rows).mapError (.shape text)

end MatrixText

namespace Normalize

def flags : List Flag := [⟨"width", none, .number⟩, ⟨"matrix", none, .text⟩, helpFlag]

/-- The flags that have to be given. -/
def requiredFlags : List String := ["matrix"]

def missingFlags (a : Arguments) : List String :=
  requiredFlags.filter fun name => (a.value? name).isNone

/-- The diagonal form with its multipliers and the valuations on the diagonal. -/
def formText (r : WordRing) (f : DiagonalForm) : String :=
  f.render ++ "ranks: [" ++ String.intercalate " " ((f.ranks r).map toString) ++ "]\n"

def output (width : Int) (text : String) : Except CommandError String :=
  match WordRing.ofWidth width with
  | .error e => .error (.width e)
  | .ok r => match MatrixText.read r text with
    | .error e => .error (.matrixText e)
    | .ok a => match r.diagonalize a with
      | .error e => .error (.diagonal e)
      | .ok f => .ok (formText r f)

/-- Runs the command, which takes no arguments beside its flags. -/
def run (command : String) (o : Options) : Outcome :=
  match o.arguments.words with
  | w :: _ => .failed (.unknownCommand w command [])
  | [] =>
    let missing := missingFlags o.arguments
    if missing.isEmpty then
      .ofExcept (output ((o.number? "width").getD Settings.default.width)
        ((o.text? "matrix").getD ""))
    else .failed (.missingFlags missing)

end Normalize

end AffineRelations
