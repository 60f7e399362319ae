import Generics.Report

/-!
# Generics.Main: the report on the command line

Without an argument the report goes to the standard output.  With one it goes to the file of that
name, and the folders above it are made first.
-/

namespace Generics

/-- The folder that a path names a file in, if the path has one: the path without its last name.
Empty names and dots are no names. -/
def parentFolder? (path : String) : Option String :=
  let noName (part : String) : Bool := part.isEmpty || part == "."
  let parts := ((path.splitOn "/").reverse.dropWhile noName).drop 1
  let folder := "/".intercalate (parts.dropWhile noName).reverse
  if folder.isEmpty then none else some folder

/-- The text of a fault of the operating system, with its number. -/
def faultText : IO.Error → String
  | .noFileOrDirectory _ code details | .interrupted _ code details
  | .alreadyExists _ code details | .invalidArgument _ code details
  | .permissionDenied _ code details | .resourceExhausted _ code details
  | .inappropriateType _ code details | .noSuchThing _ code details
  | .otherError code details | .resourceBusy code details | .resourceVanished code details
  | .unsupportedOperation code details | .hardwareFault code details
  | .unsatisfiedConstraints code details | .illegalOperation code details =>
    details ++ " (os error " ++ code.toNat.repr ++ ")"
  | e => toString e

/-- Writes a text to a file, making the folders above it, and returns the exit code. -/
def writeText (path text : String) : IO UInt32 := do
  if let some folder := parentFolder? path then
    try IO.FS.createDirAll folder
    catch e =>
      IO.eprintln ("failed to create " ++ quoted folder ++ ": " ++ faultText e)
      return 1
  try
    IO.FS.writeFile path text
    return 0
  catch e =>
    IO.eprintln ("failed to write " ++ quoted path ++ ": " ++ faultText e)
    return 1

end Generics

open Generics in
def main (args : List String) : IO UInt32 := do
  let outcome := Report.outcome args.head?
  IO.print outcome.stdout
  IO.eprint outcome.stderr
  match outcome.file with
  | none => return outcome.exit
  | some (path, text) => writeText path text
