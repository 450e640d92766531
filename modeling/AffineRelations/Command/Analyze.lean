import AffineRelations.Analysis.Run
import AffineRelations.Analysis.Trace
import AffineRelations.Command.Basic
import AffineRelations.Command.Options
import AffineRelations.Document.Yaml
import AffineRelations.Report

/-!
# The command that analyzes a program

Settings come from the defaults, then from a settings file, then from options.
The program is read from a document, and the outcome is printed as a report.
-/
namespace AffineRelations

inductive ReportFormat where
  | text | yaml
  deriving DecidableEq, Repr

def ReportFormat.ofName? (s : String) : Option ReportFormat :=
  if s = "text" then some .text else if s = "yaml" then some .yaml else none

def Report.render (r : Report) : ReportFormat → String
  | .text => r.text
  | .yaml => r.yaml

namespace Analyze

def flags : List Flag :=
  [⟨"config", none, .text⟩, ⟨"width", none, .number⟩, ⟨"entry", none, .text⟩,
   ⟨"trace-matrices", none, .switch⟩, ⟨"trace-generators", none, .switch⟩,
   ⟨"output", some 'o', .text⟩, helpFlag]

/-- The settings with the options that were given in place of them. -/
def override (s : Settings) (o : Options) : Settings :=
  { s with
    width := (o.number? "width").getD s.width
    entry := (o.text? "entry").getD s.entry
    matrices := (o.switch? "trace-matrices").getD s.matrices
    generators := (o.switch? "trace-generators").getD s.generators }

/-- The settings of a file; no path means the defaults. -/
def fileSettings {m : Type → Type} [Monad m] (read : FileReader m) (path : String) :
    m (Except CommandError Settings) :=
  if path = "" then return .ok .default
  else do
    match ← read path with
    | .error .unreadable => return .error (.settingsFile path (.malformed path))
    | .error e => return .error (.openSettings path e)
    | .ok text => return (Settings.default.load .toml path text).mapError (.settingsFile path)

/-- The settings of a run. -/
def settings {m : Type → Type} [Monad m] (read : FileReader m) (o : Options) :
    m (Except CommandError Settings) := do
  match ← fileSettings read ((o.text? "config").getD "") with
  | .error e => return .error e
  | .ok s => return ((override s o).validate .toml).mapError .settings

/-- The record that a run leaves at its end. -/
def finishedRecord (path : String) (s : Stats) : LogRecord :=
  { level := .debug
    message := "analysis finished"
    fields := [("program", .text path), ("edges", .number s.edges), ("pops", .number s.pops),
      ("accepted", .number s.accepted)] }

/-- Analyzes a program and prints the report. -/
def analyzeGraph (s : Settings) (logger : Logger) (format : ReportFormat) (path : String)
    (g : FlowGraph) : Outcome :=
  match Analyzer.configure s.width g.vars.length [s.entry] with
  | .error e => .failed (.analysis e)
  | .ok a => match a.run g with
    | (_, .error e) => .failed (.run path e)
    | (g, .ok f) =>
      { output := (Report.ofFindings a.ring g f).render format
        logs := (Observer.log logger ⟨s.matrices, s.generators⟩).lines f.events ++
          logger.lines [finishedRecord path f.stats]
        failure := none }

/-- Analyzes the program of a file. -/
def analyzeFile {m : Type → Type} [Monad m] (read : FileReader m) (s : Settings)
    (logger : Logger) (format : ReportFormat) (path : String) : m Outcome := do
  match ← read path with
  | .error .unreadable => return .failed (.document path .malformed)
  | .error e => return .failed (.openDocument path e)
  | .ok text => match ProgramDocument.load text with
    | .error e => return .failed (.document path e)
    | .ok g => return analyzeGraph s logger format path g

def runOn {m : Type → Type} [Monad m] (read : FileReader m) (o : Options) (path : String) :
    m Outcome := do
  match ← settings read o with
  | .error e => return .failed e
  | .ok s =>
    let name := (o.text? "output").getD "text"
    match ReportFormat.ofName? name with
    | none => return .failed (.outputFormat name)
    | some format => match Logger.ofNames s.level s.format with
      | .error e => return .failed (.log e)
      | .ok logger => analyzeFile read s logger format path

/-- Runs the command, which takes the path of one program. -/
def run {m : Type → Type} [Monad m] (read : FileReader m) (o : Options) : m Outcome :=
  match o.arguments.words with
  | [path] => runOn read o path
  | words => return .failed (.wordCount 1 words.length)

end Analyze

end AffineRelations
