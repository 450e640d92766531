import AffineRelations.Text.Quoted

/-!
# Settings of an analysis

Width, entry procedure, what is traced, and how log lines are written. Settings
are checked in this order, and the first fault counts.

A settings file changes the settings that it gives and leaves the others. How a
text is decoded and which words are log levels is left to a reader. The reader
fills the fields of a record, says which keys the text gives, and lists the keys
that it matched with no field, which are reported all together. A field that it
filled counts only if the text gives its key.
-/
namespace AffineRelations

structure Settings where
  width : Int
  entry : String
  matrices : Bool
  generators : Bool
  level : String
  format : String
  deriving DecidableEq, Repr

inductive SettingsFault where
  | width (w : Int)
  | emptyEntry
  | level (name : String)
  | format (name : String)
  deriving DecidableEq, Repr

/-- The cause in front of the sentence that all invalid settings share. -/
def invalidSettings (cause : String) : String := cause ++ ": config: invalid configuration"

def SettingsFault.message : SettingsFault → String
  | .width w => invalidSettings s!"width {w} outside [1, 64]"
  | .emptyEntry => invalidSettings "entry is empty"
  | .level s => invalidSettings ("log level " ++ Text.quoted s)
  | .format s => invalidSettings ("log format " ++ Text.quoted s ++ " (want console or json)")

inductive SettingsError where
  /-- The text is no document, or a value is of the wrong kind. -/
  | malformed (source : String)
  | unknownKeys (source : String) (keys : List String)
  | invalid (fault : SettingsFault)
  deriving DecidableEq, Repr

def SettingsError.message : SettingsError → String
  | .malformed source => "config: decoding " ++ source
  | .unknownKeys source keys =>
    invalidSettings (source ++ ": unknown keys " ++ String.intercalate ", " keys)
  | .invalid e => e.message

/-- A text as it was decoded. A key is the list of its parts. -/
structure DecodedSettings where
  /-- The record that was filled. -/
  fields : Settings
  /-- Whether the text gives a key. -/
  defined : List String → Bool
  /-- The keys that were matched with no field, in their order. -/
  undecoded : List (List String)

structure SettingsReader where
  /-- There is no answer if the text is no document or a value does not fit. -/
  decode : String → Option DecodedSettings
  isLevel : String → Bool

namespace Settings

def default : Settings := ⟨32, "main", false, false, "info", "console"⟩

/-- The first fault, if there is one. -/
def fault? (reader : SettingsReader) (s : Settings) : Option SettingsFault :=
  if s.width < 1 ∨ 64 < s.width then some (.width s.width)
  else if s.entry = "" then some .emptyEntry
  else if !reader.isLevel s.level then some (.level s.level)
  else if s.format ≠ "console" ∧ s.format ≠ "json" then some (.format s.format)
  else none

/-- The settings themselves, if they have no fault. -/
def validate (reader : SettingsReader) (s : Settings) : Except SettingsFault Settings :=
  match s.fault? reader with
  | some e => .error e
  | none => .ok s

/-- The settings with those that a text gives in place of them. -/
def merge (s : Settings) (d : DecodedSettings) : Settings :=
  { width := if d.defined ["width"] then d.fields.width else s.width
    entry := if d.defined ["entry"] then d.fields.entry else s.entry
    matrices := if d.defined ["trace", "matrices"] then d.fields.matrices else s.matrices
    generators := if d.defined ["trace", "generators"] then d.fields.generators else s.generators
    level := if d.defined ["log", "level"] then d.fields.level else s.level
    format := if d.defined ["log", "format"] then d.fields.format else s.format }

/-- Reads a text and merges it into settings; `source` names it in messages. -/
def load (reader : SettingsReader) (s : Settings) (source text : String) :
    Except SettingsError Settings :=
  match reader.decode text with
  | none => .error (.malformed source)
  | some d =>
    if d.undecoded.isEmpty then ((s.merge d).validate reader).mapError .invalid
    else .error (.unknownKeys source (d.undecoded.map (String.intercalate ".")))

end Settings

end AffineRelations
