import AffineRelations.Text.Integer

/-!
# Flags on a command line

A flag is given as `--name value` or `--name=value`, and by its letter, if it
has one, as `-n value`, `-nvalue` or `-n=value`. Switches need no value, and
their letters may stand together behind one dash. Flags and other arguments may
come in any order; after `--` all arguments stand for themselves.
-/
namespace AffineRelations

inductive FlagKind where
  | text | number | switch
  deriving DecidableEq, Repr

structure Flag where
  name : String
  letter : Option Char
  kind : FlagKind
  deriving DecidableEq, Repr

inductive FlagValue where
  | text (s : String)
  | number (n : Int)
  | switch (b : Bool)
  deriving DecidableEq, Repr

inductive FlagError where
  | badSyntax (arg : String)
  | unknown (name : String)
  /-- No flag has the letter; `cluster` is what stands behind the dash. -/
  | unknownLetter (letter : Char) (cluster : String)
  | needsArgument (arg : String)
  | letterNeedsArgument (letter : Char) (cluster : String)
  | badNumber (flag : Flag) (value : String) (cause : Text.IntegerFault)
  | badTruth (flag : Flag) (value : String)
  deriving DecidableEq, Repr

/-- The flag that asks for help; every command has it. -/
def helpFlag : Flag := ⟨"help", some 'h', .switch⟩

/-- A flag as it is named in messages. -/
def Flag.display (f : Flag) : String :=
  match f.letter with
  | some c => "-" ++ String.singleton c ++ ", --" ++ f.name
  | none => "--" ++ f.name

/-- The character of the first byte of a character's encoding. -/
def firstByte (c : Char) : Char :=
  match (String.singleton c).toUTF8.toList with
  | b :: _ => Char.ofNat b.toNat
  | [] => c

def invalidArgument (f : Flag) (value cause : String) : String :=
  "invalid argument " ++ Text.quoted value ++ " for " ++ Text.quoted f.display ++ " flag: " ++ cause

def FlagError.message : FlagError → String
  | .badSyntax arg => "bad flag syntax: " ++ arg
  | .unknown name => "unknown flag: --" ++ name
  | .unknownLetter c cluster =>
    "unknown shorthand flag: " ++ Text.quotedChar (firstByte c) ++ " in -" ++ cluster
  | .needsArgument arg => "flag needs an argument: " ++ arg
  | .letterNeedsArgument c cluster =>
    "flag needs an argument: " ++ Text.quotedChar (firstByte c) ++ " in -" ++ cluster
  | .badNumber f value e => invalidArgument f value (Text.integerMessage value e)
  | .badTruth f value => invalidArgument f value (Text.truthMessage value)

/-- A flag that was given, by its name. -/
abbrev GivenFlag := String × FlagValue

namespace Flag

/-- Gives a flag a value. -/
def give (f : Flag) (value : String) : Except FlagError GivenFlag :=
  match f.kind with
  | .text => .ok (f.name, .text value)
  | .number => match Text.readInteger value with
    | .ok n => .ok (f.name, .number n)
    | .error e => .error (.badNumber f value e)
  | .switch => match Text.readTruth? value with
    | some b => .ok (f.name, .switch b)
    | none => .error (.badTruth f value)

/-- What an argument gives, and whether it takes the next argument as value. -/
abbrev Reading := List GivenFlag × Bool

def giveOne (f : Flag) (value : String) (takesNext : Bool) : Except FlagError Reading :=
  match f.give value with
  | .ok g => .ok ([g], takesNext)
  | .error e => .error e

/-- A flag by its name, behind two dashes. -/
def readLong (flags : List Flag) (arg : String) (next : Option String) :
    Except FlagError Reading :=
  let body := arg.toList.drop 2
  if body.take 1 = ['-'] ∨ body.take 1 = ['='] then .error (.badSyntax arg)
  else
    let name := String.ofList (body.takeWhile (· != '='))
    match flags.find? fun f => f.name == name with
    | none => .error (.unknown name)
    | some f => match body.dropWhile (· != '=') with
      | _ :: value => f.giveOne (String.ofList value) false
      | [] =>
        if f.kind = .switch then f.giveOne "true" false
        else match next with
          | some value => f.giveOne value true
          | none => .error (.needsArgument arg)

/-- Whether letters belong to a test runner, whose flags start with `test.`. -/
def isForTests (cs : List Char) : Bool := cs.take 5 == ['t', 'e', 's', 't', '.']

/-- Flags by their letters, behind one dash. The flags of a test runner are
passed over. -/
def readLetters (flags : List Flag) (next : Option String) : List Char → Except FlagError Reading
  | [] => .ok ([], false)
  | c :: cs =>
    let cluster := String.ofList (c :: cs)
    if isForTests (c :: cs) then .ok ([], false)
    else match flags.find? fun f => f.letter == some c with
    | none => .error (.unknownLetter c cluster)
    | some f =>
      if cs.take 1 = ['='] ∧ 2 ≤ cs.length then f.giveOne (String.ofList (cs.drop 1)) false
      else if f.kind = .switch then match f.give "true", readLetters flags next cs with
        | .ok g, .ok (gs, takesNext) => .ok (g :: gs, takesNext)
        | .error e, _ | _, .error e => .error e
      else if !cs.isEmpty then f.giveOne (String.ofList cs) false
      else match next with
        | some value => f.giveOne value true
        | none => .error (.letterNeedsArgument c cluster)

/-- An argument that starts with a dash. -/
def read (flags : List Flag) (arg : String) (next : Option String) : Except FlagError Reading :=
  match arg.toList with
  | '-' :: '-' :: _ => readLong flags arg next
  | cs => readLetters flags next (cs.drop 1)

end Flag

/-- A command line taken apart. -/
structure Arguments where
  given : List GivenFlag
  words : List String
  deriving DecidableEq, Repr

/-- Whether an argument stands for itself. -/
def isWord (arg : String) : Bool := !(arg.startsWith "-") || arg == "-"

namespace Arguments

def addWord (w : String) (a : Arguments) : Arguments := { a with words := w :: a.words }

def addGiven (gs : List GivenFlag) (a : Arguments) : Arguments := { a with given := gs ++ a.given }

def parse (flags : List Flag) : List String → Except FlagError Arguments
  | [] => .ok ⟨[], []⟩
  | arg :: rest =>
    if isWord arg then (parse flags rest).map (addWord arg)
    else if arg = "--" then .ok ⟨[], rest⟩
    else match Flag.read flags arg rest.head? with
      | .error e => .error e
      | .ok (gs, false) => (parse flags rest).map (addGiven gs)
      | .ok (gs, true) => match rest with
        | [] => .ok ⟨gs, []⟩
        | _ :: rest => (parse flags rest).map (addGiven gs)

/-- The last value that a flag was given. -/
def value? (a : Arguments) (name : String) : Option FlagValue :=
  (a.given.reverse.find? fun g => g.1 == name).map (·.2)

end Arguments

end AffineRelations
