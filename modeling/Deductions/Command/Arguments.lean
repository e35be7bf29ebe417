import Deductions.Command

namespace Deductions

/-- An option that takes a value, or that only is there. -/
inductive OptionKind where
  | valued
  | plain
deriving DecidableEq

/-- Arguments sorted out: files, options with their values, and plain options. -/
structure Arguments where
  files : List String := []
  values : List (String × String) := []
  flags : List String := []
deriving DecidableEq

namespace Arguments

/-- Sorts out arguments; none where an option is unknown or lacks its value. -/
def sort (known : List (String × OptionKind)) : Arguments → List String → Option Arguments
  | a, [] => some a
  | a, word :: rest =>
    match known.lookup word with
    | some .plain => sort known { a with flags := a.flags ++ [word] } rest
    | some .valued =>
      match rest with
      | [] => none
      | value :: rest => sort known { a with values := a.values ++ [(word, value)] } rest
    | none =>
      if word.startsWith "--" then none
      else sort known { a with files := a.files ++ [word] } rest

/-- The value of an option that is given at most once. -/
def value? (a : Arguments) (name : String) : Option String := a.values.lookup name

/-- The values of an option that may be repeated. -/
def allValues (a : Arguments) (name : String) : List String :=
  (a.values.filter fun v => v.1 == name).map Prod.snd

end Arguments

namespace Command

def checkArguments (arguments : List String) : Option Command := do
  let a ← Arguments.sort
    [("--module", .valued), ("--version", .valued), ("--library", .valued)] {} arguments
  let [file] := a.files | none
  return .check file (← a.value? "--module") (a.value? "--version") (a.allValues "--library")

def formatArguments (arguments : List String) : Option Command := do
  let a ← Arguments.sort [("--write", .plain), ("--check", .plain)] {} arguments
  let [file] := a.files | none
  return .format file (a.flags.contains "--write") (a.flags.contains "--check")

def buildArguments (arguments : List String) : Option Command := do
  let a ← Arguments.sort [("--manifest", .valued), ("--out", .valued)] {} arguments
  let [] := a.files | none
  return .build (a.value? "--manifest") (a.value? "--out")

def validateArguments (arguments : List String) : Option Command := do
  let a ← Arguments.sort [("--manifest", .valued), ("--report", .valued)] {} arguments
  let [] := a.files | none
  return .validate (a.value? "--manifest") (a.value? "--report")

/-- The command that the arguments ask for. -/
def ofArguments? : List String → Option Command
  | "check" :: rest => checkArguments rest
  | "fmt" :: rest => formatArguments rest
  | "build" :: rest => buildArguments rest
  | "validate" :: rest => validateArguments rest
  | _ => none

def usage : String :=
  "usage:\n" ++
  "  check FILE --module PATH [--version VERSION] [--library FILE]...\n" ++
  "  fmt FILE [--write] [--check]\n" ++
  "  build [--manifest FILE] [--out FILE]\n" ++
  "  validate [--manifest FILE] [--report human|json]\n"

end Command

end Deductions
