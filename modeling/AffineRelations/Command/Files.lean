/-!
# Files

Commands read files through a function from paths to texts, so that they can be
run on a tree of files in memory as well as on a disk.

A tree of files is the working directory of a larger file system. Of the rest
of that system only the directories that every such system has are known, and
the file without content.
-/
namespace AffineRelations

inductive FileFault where
  | missing
  /-- Something on the way is a file. -/
  | notDirectory
  /-- There is something, but it has no text. -/
  | unreadable
  /-- The path or one of its steps is too long. -/
  | tooLong
  /-- The path cannot be handed to a file system. -/
  | invalidPath
  deriving DecidableEq, Repr

/-- How a file that cannot be opened is reported. -/
def FileFault.message (path : String) : FileFault → String
  | .missing => "open " ++ path ++ ": no such file or directory"
  | .notDirectory => "open " ++ path ++ ": not a directory"
  | .unreadable => "read " ++ path ++ ": is a directory"
  | .tooLong => "open " ++ path ++ ": file name too long"
  | .invalidPath => "open " ++ path ++ ": invalid argument"

/-- A function that reads files. -/
abbrev FileReader (m : Type → Type) := String → m (Except FileFault String)

/-- Files in memory by their paths from the working directory. -/
abbrev FileTree := List (String × String)

namespace FileTree

/-- The number of bytes that a step of a path may have. -/
def stepLimit : Nat := 255

/-- The number of bytes from which on a path is too long. -/
def pathLimit : Nat := 4096

/-- The steps of a path. -/
def steps (path : String) : List String := path.splitOn "/"

/-- Steps without those that lead nowhere; a step back takes away the one before
it. -/
def cleaned (path : List String) : List String :=
  path.foldl (fun done step =>
    if step = "" ∨ step = "." then done
    else if step = ".." then done.dropLast
    else done ++ [step]) []

/-- A place in the file system. -/
inductive Place where
  /-- In the working directory or below it. -/
  | inside (path : List String)
  /-- In a directory above the working directory. -/
  | above
  /-- At a path from the root. -/
  | outside (path : List String)
  | nowhere
  deriving DecidableEq, Repr

/-- Directories of every system, from the root. -/
def commonDirectories : List (List String) :=
  [["bin"], ["dev"], ["etc"], ["home"], ["proc"], ["root"], ["tmp"], ["usr"], ["usr", "bin"],
   ["usr", "lib"], ["var"], ["var", "tmp"]]

/-- The text of the file at a place. -/
def text? (files : FileTree) : Place → Option String
  | .inside path => (files.find? fun f => cleaned (steps f.1) == path).map (·.2)
  | .outside path => if path = ["dev", "null"] then some "" else none
  | .above | .nowhere => none

/-- Whether a place is a directory. -/
def isDirectory (files : FileTree) : Place → Bool
  | .inside path => path.isEmpty || files.any fun f =>
      path.isPrefixOf (cleaned (steps f.1)) && cleaned (steps f.1) != path
  | .above => true
  | .outside path => path.isEmpty || commonDirectories.contains path
  | .nowhere => false

/-- One step on from a place. -/
def Place.step : Place → String → Place
  | .inside path, s =>
    if s = ".." then (if path.isEmpty then .above else .inside path.dropLast)
    else .inside (path ++ [s])
  | .above, s => if s = ".." then .above else .nowhere
  | .outside path, s => .outside (if s = ".." then path.dropLast else path ++ [s])
  | .nowhere, _ => .nowhere

/-- Follows the steps of a path from a place in the tree. -/
def follow (files : FileTree) (place : Place) : List String → Except FileFault String
  | [] => match files.text? place with
    | some s => .ok s
    | none => .error (if files.isDirectory place then .unreadable else .missing)
  | step :: rest =>
    if (files.text? place).isSome then .error .notDirectory
    else if !files.isDirectory place then .error .missing
    else if stepLimit < step.utf8ByteSize then .error .tooLong
    else if step = "" ∨ step = "." then follow files place rest
    else follow files (place.step step) rest

def read (files : FileTree) (path : String) : Except FileFault String :=
  if path.toList.contains (Char.ofNat 0) then .error .invalidPath
  else if path = "" then .error .missing
  else if pathLimit ≤ path.utf8ByteSize then .error .tooLong
  else files.follow (if path.startsWith "/" then .outside [] else .inside []) (steps path)

end FileTree

end AffineRelations
