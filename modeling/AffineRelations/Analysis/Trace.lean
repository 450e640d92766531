import AffineRelations.Analysis.Basic
import AffineRelations.Log.Basic

/-!
# Tracing an analysis

The events of a run as log records. Matrices and generator sets can be traced
one without the other; an edge without a statement is traced as `skip`.
-/
namespace AffineRelations

structure TraceFlags where
  matrices : Bool
  generators : Bool
  deriving DecidableEq, Repr

def matrixRecords (e : Edge) (name : String) : List LogRecord :=
  e.matrices.zipIdx.map fun (m, i) =>
    { level := .info
      message := "transition matrix"
      fields := [("edge", .text name),
        ("stmt", .text ((e.stmt.map Expr.render).getD "skip")),
        ("index", .number i), ("of", .number e.matrices.length),
        ("matrix", .text m.render)] }

def generatorsRecord (node : String) (s : GeneratorSet) : LogRecord :=
  { level := .info
    message := "generators changed"
    fields := [("node", .text node), ("size", .number s.size), ("set", .text s.render)] }

/-- The records of an event, as far as it is traced. -/
def TraceFlags.records (flags : TraceFlags) : Event → List LogRecord
  | .matrices e name => if flags.matrices then matrixRecords e name else []
  | .generators node s => if flags.generators then [generatorsRecord node s] else []

/-- Who follows a run: nobody, a recorder of all events, or a log. -/
inductive Observer where
  | silent
  | recorder
  | log (logger : Logger) (flags : TraceFlags)
  deriving DecidableEq, Repr

namespace Observer

def events : Observer → List Event → List Event
  | .recorder, es => es
  | _, _ => []

def lines : Observer → List Event → List String
  | .log logger flags, es => logger.lines (es.flatMap flags.records)
  | _, _ => []

end Observer

end AffineRelations
