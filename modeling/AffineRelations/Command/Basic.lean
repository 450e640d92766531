import AffineRelations.Analysis.Basic
import AffineRelations.Command.Files
import AffineRelations.Command.Flags
import AffineRelations.Document.Program
import AffineRelations.Log.Basic
import AffineRelations.Settings.Toml
import AffineRelations.Word.Diagonal

/-!
# Commands and their outcomes

A command writes its output, leaves log lines, and may fail. The causes of
failure are those of its parts, with the file that they concern.
-/
namespace AffineRelations

/-- Why a matrix given as text cannot be read. -/
inductive MatrixTextError where
  | entry (row col : Nat) (text : String) (cause : Text.IntegerFault)
  | shape (text : String) (cause : WordError)
  deriving DecidableEq, Repr

def MatrixTextError.message : MatrixTextError → String
  | .entry i j text e => s!"matrix entry ({i},{j}): " ++ Text.integerMessage text e
  | .shape text e => "matrix " ++ Text.quoted text ++ ": " ++ e.message

inductive CommandError where
  | unknownCommand (name parent : String) (similar : List String)
  | flag (cause : FlagError)
  | wordCount (expected received : Nat)
  | missingFlags (names : List String)
  | openSettings (path : String) (cause : FileFault)
  | settingsFile (path : String) (cause : SettingsError)
  | settings (cause : SettingsFault)
  | outputFormat (name : String)
  | log (cause : LogError)
  | openDocument (path : String) (cause : FileFault)
  | document (path : String) (cause : DocumentError)
  | analysis (cause : AnalysisError)
  | run (path : String) (cause : AnalysisError)
  | width (cause : WordError)
  | matrixText (cause : MatrixTextError)
  | diagonal (cause : DiagonalError)
  deriving DecidableEq, Repr

/-- The hint that other commands have similar names. -/
def similarHint : List String → String
  | [] => ""
  | names => "\n\nDid you mean this?\n" ++ String.join (names.map fun n => "\t" ++ n ++ "\n")

namespace CommandError

def message : CommandError → String
  | .unknownCommand name parent similar =>
    "unknown command " ++ Text.quoted name ++ " for " ++ Text.quoted parent ++ similarHint similar
  | .flag e => e.message
  | .wordCount expected received => s!"accepts {expected} arg(s), received {received}"
  | .missingFlags names =>
    "required flag(s) \"" ++ String.intercalate "\", \"" names ++ "\" not set"
  | .openSettings path e => "config: opening " ++ path ++ ": " ++ e.message path
  | .settingsFile path (.invalid e) => path ++ ": " ++ e.message
  | .settingsFile _ e => e.message
  | .settings e => e.message
  | .outputFormat name => "unknown output format " ++ Text.quoted name
  | .log e => e.message
  | .openDocument path e => "loader: opening " ++ path ++ ": " ++ e.message path
  | .document path e => path ++ ": " ++ e.message
  | .analysis e => e.message
  | .run path e => path ++ ": " ++ e.message
  | .width e => e.message
  | .matrixText e => e.message
  | .diagonal e => e.message

end CommandError

/-- What a command leaves behind. -/
structure Outcome where
  output : String
  logs : List String
  failure : Option CommandError
  deriving DecidableEq, Repr

namespace Outcome

def failed (e : CommandError) : Outcome := ⟨"", [], some e⟩

def printed (output : String) : Outcome := ⟨output, [], none⟩

def ofExcept : Except CommandError String → Outcome
  | .ok output => printed output
  | .error e => failed e

end Outcome

end AffineRelations
