import Deductions.Command.Arguments

namespace Deductions

/-- The cause of a failure that the system reports. -/
def DiskError.ofSystem (error : IO.Error) : DiskError :=
  match error with
  | .noFileOrDirectory .. | .noSuchThing .. => .notFound
  | .alreadyExists .. => .alreadyExists
  | .permissionDenied .. => .permissionDenied
  | .inappropriateType _ code _ =>
    if code = 21 || code = -21 then .isDirectory
    else if code = 20 || code = -20 then .notDirectory
    else .other (toString error)
  | .invalidArgument _ code _ =>
    if code = 36 || code = -36 then .nameTooLong else .other (toString error)
  | _ => .other (toString error)

/-- The answer of an action of the system on a path, or the cause of its failure. -/
def attempt {α : Type} (path : String) (action : IO α) : IO (Except DiskError α) := do
  match pathError? path with
  | some error => return .error error
  | none =>
    try
      return .ok (← action)
    catch error =>
      return .error (.ofSystem error)

instance : Disk IO where
  readFile path := attempt path do return (← IO.FS.readBinFile path).data.toList
  writeFile path bytes := attempt path (IO.FS.writeBinFile path bytes.toByteArray)
  makeDirectory path := attempt path (IO.FS.createDir path)
  directories := return outwards (toString (← IO.currentDir))

end Deductions

open Deductions in
/-- Prints what a command prints; the status tells whether it succeeded. -/
def main (arguments : List String) : IO UInt32 := do
  match Command.ofArguments? arguments with
  | none =>
    IO.eprint Command.usage
    return 2
  | some command =>
    let (result, transcript) ← command.execute (m := IO)
    IO.print transcript.output
    IO.eprint transcript.complaints
    match result with
    | .ok _ => return 0
    | .error error =>
      IO.eprintln s!"error: {error.message}"
      return 1
