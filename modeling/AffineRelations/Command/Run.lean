import AffineRelations.Command.Analyze
import AffineRelations.Command.Normalize
import AffineRelations.Text.Words

/-!
# Running a command line

The first argument that is neither a flag nor the value of one names the
command. An unknown name is reported together with the commands whose names are
similar to it.
-/
namespace AffineRelations

def programName : String := "affrel"

inductive CommandName where
  | analyze | normalize | completion | help
  deriving DecidableEq, Repr

namespace CommandName

def all : List CommandName := [.analyze, .normalize, .completion, .help]

def text : CommandName → String
  | .analyze => "analyze"
  | .normalize => "normalize"
  | .completion => "completion"
  | .help => "help"

def ofText? (s : String) : Option CommandName := all.find? fun c => c.text == s

/-- The commands that are offered in place of an unknown one. -/
def offered : List CommandName := [.analyze, .normalize, .completion]

/-- Whether a name is at most two edits away from a command, or the beginning of
it, in any letter case. -/
def isSimilar (name : String) (c : CommandName) : Bool :=
  let typed := Text.lower name
  Text.editDistance typed.toUTF8.toList c.text.toUTF8.toList ≤ 2 || c.text.startsWith typed

end CommandName

/-- Whether an argument looks like a flag with its value in the next argument. -/
def takesValue (arg : String) : Bool :=
  !(arg.toList.contains '=') &&
    (arg.startsWith "--" || (arg.startsWith "-" && arg.utf8ByteSize == 2))

/-- The first argument that is neither a flag nor looks like the value of one. A
flag with less than two arguments behind it ends the search. -/
def commandWord? : List String → Option String
  | [] => none
  | arg :: rest =>
    if arg = "--" then none
    else if takesValue arg then match rest with
      | _ :: b :: more => commandWord? (b :: more)
      | _ => none
    else if arg ≠ "" ∧ !(arg.startsWith "-") then some arg
    else commandWord? rest

/-- Whether help was asked for. -/
def asksHelp (a : Arguments) : Bool := a.value? "help" == some (.switch true)

/-- Parses the flags of a command and runs it. Help prints nothing here. -/
def withFlags {m : Type → Type} [Monad m] (flags : List Flag) (args : List String)
    (run : Arguments → m Outcome) : m Outcome :=
  match Arguments.parse flags args with
  | .error e => return .failed (.flag e)
  | .ok a => if asksHelp a then return .printed "" else run a

/-- Runs a command line. -/
def runCommand {m : Type → Type} [Monad m] (read : FileReader m) (env : Environment)
    (args : List String) : m Outcome :=
  match commandWord? args with
  | none => withFlags [helpFlag] args fun _ => return .printed ""
  | some w => match CommandName.ofText? w with
    | none => return .failed (.unknownCommand w programName
        ((CommandName.offered.filter (CommandName.isSimilar w)).map CommandName.text))
    | some .analyze => withFlags Analyze.flags (args.erase w) fun a =>
        Analyze.run read ⟨a, env, none⟩
    | some .normalize => withFlags Normalize.flags (args.erase w) fun a =>
        return Normalize.run (programName ++ " normalize") ⟨a, env, some "normalize"⟩
    | some _ => return .printed ""

/-- The variables that options are read from. -/
def optionVariables : List String :=
  (Analyze.flags.map fun f => variableName f.name) ++
    (Normalize.flags.map fun f => variableName ("normalize." ++ f.name)) ++
    [variableName "normalize"]

end AffineRelations
