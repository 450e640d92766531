import AffineRelations.Command.Flags

/-!
# Options

An option is given by a flag, or else by an environment variable that is not
empty. A variable that is no number counts as zero, and one that is no truth
value as false.
-/
namespace AffineRelations

/-- The variables of the environment. -/
abbrev Environment := List (String × String)

/-- The value of a variable that is set and not empty. -/
def Environment.value? (env : Environment) (name : String) : Option String :=
  (List.lookup name env).filter (· != "")

/-- The variable of an option: its name in capitals, with underscores for dashes
and points. -/
def variableName (option : String) : String :=
  "AFFREL_" ++ option.map fun c => if c = '-' ∨ c = '.' then '_' else c.toUpper

/-- Where the options of a command come from. -/
structure Options where
  arguments : Arguments
  env : Environment
  /-- The group of the command, whose variables have its name in front. -/
  group : Option String
  deriving DecidableEq, Repr

namespace Options

/-- The variable of an option in the group of the command. -/
def fromEnvironment? (o : Options) (name : String) : Option String :=
  match o.group with
  | none => o.env.value? (variableName name)
  | some g => o.env.value? (variableName (g ++ "." ++ name))

/-- Whether the variables of the group are hidden by one with the group's own
name. Options then have no value instead of their default. -/
def hidden (o : Options) : Bool :=
  match o.group with
  | none => false
  | some g => (o.env.value? (variableName g)).isSome

def text? (o : Options) (name : String) : Option String :=
  match o.arguments.value? name with
  | some (.text s) => some s
  | _ => match o.fromEnvironment? name with
    | some s => some s
    | none => if o.hidden then some "" else none

def number? (o : Options) (name : String) : Option Int :=
  match o.arguments.value? name with
  | some (.number n) => some n
  | _ => match o.fromEnvironment? name with
    | some s => some ((Text.readInteger s).toOption.getD 0)
    | none => if o.hidden then some 0 else none

def switch? (o : Options) (name : String) : Option Bool :=
  match o.arguments.value? name with
  | some (.switch b) => some b
  | _ => match o.fromEnvironment? name with
    | some s => some ((Text.readTruth? s).getD false)
    | none => if o.hidden then some false else none

end Options

end AffineRelations
