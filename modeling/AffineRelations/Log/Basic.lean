import AffineRelations.Text.Quoted
import AffineRelations.Text.Words

/-!
# Log lines

A record has a level, a message and fields. A logger drops the records below
its level and writes each of the others as one line, either as an object in
JSON or for a console: level and message, and the fields as an object, with
tabs between them.
-/
namespace AffineRelations

inductive LogLevel where
  | debug | info | warn | error | dpanic | panic | fatal
  deriving DecidableEq, Repr

namespace LogLevel

def all : List LogLevel := [.debug, .info, .warn, .error, .dpanic, .panic, .fatal]

def name : LogLevel → String
  | .debug => "debug"
  | .info => "info"
  | .warn => "warn"
  | .error => "error"
  | .dpanic => "dpanic"
  | .panic => "panic"
  | .fatal => "fatal"

def capitalName (l : LogLevel) : String := l.name.toUpper

/-- The rank of a level; more severe levels come later. -/
def rank (l : LogLevel) : Nat := all.idxOf l

/-- The level of a name in any letter case; no name at all means info. -/
def ofName? (s : String) : Option LogLevel :=
  let t := Text.lower s
  if t = "" then some .info else all.find? fun l => l.name == t

end LogLevel

inductive LogFormat where
  | json | console
  deriving DecidableEq, Repr

/-- The format of a name; no name at all means the console. -/
def LogFormat.ofName? (s : String) : Option LogFormat :=
  if s = "json" then some .json
  else if s = "console" ∨ s = "" then some .console
  else none

inductive LogError where
  | level (name : String)
  | format (name : String)
  deriving DecidableEq, Repr

def LogError.message : LogError → String
  | .level s => "logging: level " ++ Text.quoted s ++ ": unrecognized level: " ++ Text.quoted s
  | .format s => "logging: unknown format " ++ Text.quoted s

inductive LogValue where
  | text (s : String)
  | number (n : Nat)
  deriving DecidableEq, Repr

structure LogRecord where
  level : LogLevel
  message : String
  fields : List (String × LogValue)
  deriving DecidableEq, Repr

/-- A character inside a JSON string. -/
def jsonChar (c : Char) : List Char :=
  if c = '"' ∨ c = '\\' then ['\\', c]
  else if c = '\n' then ['\\', 'n']
  else if c = '\r' then ['\\', 'r']
  else if c = '\t' then ['\\', 't']
  else if c.toNat < 0x20 then '\\' :: 'u' :: Text.hexDigits c.toNat 4
  else [c]

def jsonString (s : String) : String :=
  String.ofList ('"' :: s.toList.flatMap jsonChar ++ ['"'])

def LogValue.render : LogValue → String
  | .text s => jsonString s
  | .number n => toString n

/-- How the members of an object are set apart. -/
structure ObjectStyle where
  afterKey : String
  between : String
  deriving DecidableEq, Repr

/-- The object with the given members. -/
def ObjectStyle.render (style : ObjectStyle) (fields : List (String × LogValue)) : String :=
  "\x7b" ++ String.intercalate style.between
    (fields.map fun f => jsonString f.1 ++ style.afterKey ++ f.2.render) ++ "\x7d"

namespace LogFormat

/-- JSON is written without blanks, the console's fields with them. -/
def style : LogFormat → ObjectStyle
  | .json => ⟨":", ","⟩
  | .console => ⟨": ", ", "⟩

def line (f : LogFormat) (r : LogRecord) : String :=
  match f with
  | .json => f.style.render
      (("level", .text r.level.name) :: ("msg", .text r.message) :: r.fields)
  | .console => r.level.capitalName ++ "\t" ++ r.message ++
      (if r.fields.isEmpty then "" else "\t" ++ f.style.render r.fields)

end LogFormat

structure Logger where
  level : LogLevel
  format : LogFormat
  deriving DecidableEq, Repr

namespace Logger

def ofNames (level format : String) : Except LogError Logger :=
  match LogLevel.ofName? level with
  | none => .error (.level level)
  | some l => match LogFormat.ofName? format with
    | none => .error (.format format)
    | some f => .ok ⟨l, f⟩

/-- The lines that a logger writes for the records. -/
def lines (l : Logger) (rs : List LogRecord) : List String :=
  (rs.filter fun r => l.level.rank ≤ r.level.rank).map l.format.line

end Logger

end AffineRelations
