import AffineRelations.Command.Run

/-!
# The program

Reads files from the disk and options from the environment. Log lines and the
error go to the standard error.
-/
namespace AffineRelations

/-- The code of the system for a path that goes through a file. -/
def notDirectoryCode : UInt32 := 20

/-- Reads a file from the disk. -/
def readDisk (path : String) : IO (Except FileFault String) := do
  try
    let bytes ← IO.FS.readBinFile path
    return match String.fromUTF8? bytes with
      | some s => .ok s
      | none => .error .unreadable
  catch
    | .noFileOrDirectory .. => return .error .missing
    | .inappropriateType _ code _ =>
      return .error (if code = notDirectoryCode then .notDirectory else .unreadable)
    | _ => return .error .unreadable

/-- The option variables that are set. -/
def readEnvironment : IO Environment := do
  let mut env : Environment := []
  for name in optionVariables do
    if let some value ← IO.getEnv name then
      env := env ++ [(name, value)]
  return env

end AffineRelations

open AffineRelations in
def main (args : List String) : IO UInt32 := do
  let outcome ← runCommand readDisk (← readEnvironment) args
  for line in outcome.logs do
    IO.eprintln line
  IO.print outcome.output
  match outcome.failure with
  | none => return 0
  | some e =>
    IO.eprintln ("Error: " ++ e.message)
    return 1
