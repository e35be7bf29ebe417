namespace Deductions

inductive DiskError where
  | notFound
  | alreadyExists
  | notDirectory
  | isDirectory
  | permissionDenied
  | nameTooLong
  /-- No name holds the character of number zero. -/
  | nulInName
  /-- The file holds no text. -/
  | notText
  | other (text : String)
deriving DecidableEq

def DiskError.message : DiskError → String
  | .notFound => "No such file or directory (os error 2)"
  | .permissionDenied => "Permission denied (os error 13)"
  | .alreadyExists => "File exists (os error 17)"
  | .notDirectory => "Not a directory (os error 20)"
  | .isDirectory => "Is a directory (os error 21)"
  | .nameTooLong => "File name too long (os error 36)"
  | .nulInName => "file name contained an unexpected NUL byte"
  | .notText => "stream did not contain valid UTF-8"
  | .other text => text

/-- The greatest number of bytes in a path. -/
def pathLimit : Nat := 4095

/-- The greatest number of bytes in a name. -/
def nameLimit : Nat := 255

/-- What is wrong with a path wherever it leads. -/
def pathError? (path : String) : Option DiskError :=
  if path.toList.contains '\x00' then some .nulInName
  else if path.utf8ByteSize > pathLimit then some .nameTooLong
  else if path.isEmpty then some .notFound
  else none

/-- The path of a file that is named from a directory. -/
def joinPath (directory file : String) : String :=
  if directory.isEmpty || file.startsWith "/" then file
  else if directory.endsWith "/" then directory ++ file
  else directory ++ "/" ++ file

/-- Drops slashes and idle `.` parts from the end of a path, which is given backwards. -/
def dropIdle : List Char → List Char
  | '/' :: rest => dropIdle rest
  | '.' :: '/' :: rest => dropIdle rest
  | rest => rest

/-- The directory in which a path lies; none for the root and for the empty path. -/
def parentPath? (path : String) : Option String :=
  match dropIdle path.toList.reverse with
  | [] => none
  | name =>
    let rest := name.dropWhile (· != '/')
    match dropIdle rest with
    | [] => some (if rest.isEmpty then "" else "/")
    | directory => some (String.ofList directory.reverse)

/-- A path and at most `n` directories that it lies in, innermost first. -/
def outwardsWithin : Nat → String → List String
  | 0, path => [path]
  | n + 1, path =>
    match parentPath? path with
    | some outer => path :: outwardsWithin n outer
    | none => [path]

/-- A path and the directories that it lies in, innermost first. -/
def outwards (path : String) : List String := outwardsWithin path.length path

class Disk (m : Type → Type) where
  /-- A directory cannot be read. -/
  readFile : String → m (Except DiskError (List UInt8))
  /-- Makes a file, in place of one that is there. -/
  writeFile : String → List UInt8 → m (Except DiskError Unit)
  /-- Makes a directory inside one that is there. -/
  makeDirectory : String → m (Except DiskError Unit)
  /-- The directory in which a command runs and those that this one lies in, innermost first. -/
  directories : m (List String)

namespace Disk

variable {m : Type → Type} [Monad m] [Disk m]

def isFile (path : String) : m Bool := do
  let result : Except DiskError (List UInt8) ← readFile path
  return result.isOk

def isDirectory (path : String) : m Bool := do
  let result : Except DiskError (List UInt8) ← readFile path
  match result with
  | .error .isDirectory => return true
  | _ => return false

/-- That a directory could not be made is no failure if it is there. -/
def unlessThere (path : String) : Except DiskError Unit → m (Except DiskError Unit)
  | .ok () => return .ok ()
  | .error e => do return if ← isDirectory path then .ok () else .error e

/-- Makes the first of some directories, each of which lies in the next one. What has been made
stays when something fails. -/
def makeOutwards : List String → m (Except DiskError Unit)
  | [] => return .ok ()
  | path :: outer => do
    let result : Except DiskError Unit ← makeDirectory path
    match result with
    | .error .notFound =>
      match ← makeOutwards outer with
      | .ok () => unlessThere path (← makeDirectory path)
      | failure => return failure
    | result => unlessThere path result

/-- Makes a directory and those that it lies in, unless they are there. -/
def makeDirectories (path : String) : m (Except DiskError Unit) :=
  makeOutwards ((outwards path).filter fun directory => !directory.isEmpty)

end Disk

/-- The text of a file. -/
def decodeText (bytes : List UInt8) : Except DiskError String :=
  match String.fromUTF8? bytes.toByteArray with
  | some text => .ok text
  | none => .error .notText

def encodeText (text : String) : List UInt8 := text.toUTF8.data.toList

end Deductions
