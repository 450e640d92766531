import AffineRelations.Log.Basic
import AffineRelations.Settings.Basic
import AffineRelations.Toml.Table

/-!
# Settings in TOML

The reader for settings files. A key is matched with the setting that it names
in any letter case, and its value must be of the setting's kind. If several keys
name one setting, the last of them fills its field.
-/
namespace AffineRelations

/-- The settings that a file can give. -/
inductive Setting where
  | width | entry | matrices | generators | level | format
  deriving DecidableEq, Repr

/-- Letters that differ in case only are taken as one. Besides the ASCII letters
these are the long s and the Kelvin sign. -/
def foldChar (c : Char) : Char :=
  if c.toNat = 0x17F then 's' else if c.toNat = 0x212A then 'k' else c.toLower

/-- The parts of two keys differ in letter case only. -/
def samePath (p q : TomlPath) : Bool :=
  p.map (·.toList.map foldChar) == q.map (·.toList.map foldChar)

namespace Setting

def all : List Setting := [.width, .entry, .matrices, .generators, .level, .format]

/-- The key of a setting, in its own spelling. -/
def path : Setting → TomlPath
  | .width => ["width"]
  | .entry => ["entry"]
  | .matrices => ["trace", "matrices"]
  | .generators => ["trace", "generators"]
  | .level => ["log", "level"]
  | .format => ["log", "format"]

/-- The keys of the tables that hold settings. -/
def groups : List TomlPath := [["trace"], ["log"]]

def ofPath? (p : TomlPath) : Option Setting := all.find? fun σ => samePath σ.path p

def isGroup (p : TomlPath) : Bool := groups.any fun g => samePath g p

/-- Fills the field of a setting; there is no answer if the value is of another
kind. -/
def write? (s : Settings) : Setting → TomlNode → Option Settings
  | .width, .leaf (.integer n) => some { s with width := n }
  | .entry, .leaf (.text t) => some { s with entry := t }
  | .matrices, .leaf (.bool b) => some { s with matrices := b }
  | .generators, .leaf (.bool b) => some { s with generators := b }
  | .level, .leaf (.text t) => some { s with level := t }
  | .format, .leaf (.text t) => some { s with format := t }
  | _, _ => none

end Setting

namespace TomlFields

/-- Whether there is a field at a path, behind tables. -/
def holds (fs : TomlFields) : TomlPath → Bool
  | [] => false
  | [k] => (List.lookup k fs).isSome
  | k :: ks => match List.lookup k fs with
    | some (.table inner) => holds inner ks
    | _ => false

/-- Fills the fields of the settings in one table. -/
def writeSettings (context : TomlPath) (s : Settings) (fs : TomlFields) : Option Settings :=
  fs.foldlM (fun s f => match Setting.ofPath? (context ++ [f.1]) with
    | some σ => Setting.write? s σ f.2
    | none => some s) s

/-- Fills the fields of the settings in the groups. -/
def writeGroups (s : Settings) (fs : TomlFields) : Option Settings :=
  fs.foldlM (fun s f =>
    if Setting.isGroup [f.1] then match f.2 with
      | .table inner => writeSettings [f.1] s inner
      | _ => none
    else some s) s

/-- The keys that name settings in one table. -/
def settingKeys (context : TomlPath) (fs : TomlFields) : List TomlPath :=
  (fs.map fun f => context ++ [f.1]).filter fun p => (Setting.ofPath? p).isSome

/-- The keys that name groups, and settings in them. -/
def groupKeys (fs : TomlFields) : List TomlPath :=
  fs.flatMap fun f =>
    if Setting.isGroup [f.1] then match f.2 with
      | .table inner => [f.1] :: settingKeys [f.1] inner
      | _ => []
    else []

end TomlFields

/-- Matches the fields of a document with settings. Which keys are left over is
decided by their texts. -/
def TomlTree.decodeSettings (t : TomlTree) : Option DecodedSettings := do
  let s ← t.fields.writeSettings [] ⟨0, "", false, false, "", ""⟩
  let s ← t.fields.writeGroups s
  let matched := (t.fields.settingKeys [] ++ t.fields.groupKeys).map TomlPath.render
  return {
    fields := s
    defined := t.fields.holds
    undecoded := t.keys.filter fun p => !matched.contains (TomlPath.render p) }

/-- Settings files are documents in TOML, and log levels are those of log lines. -/
def SettingsReader.toml : SettingsReader where
  decode text := do
    let lines ← Toml.lines? text
    let tree ← TomlTree.ofLines? lines
    tree.decodeSettings
  isLevel name := (LogLevel.ofName? name).isSome

end AffineRelations
