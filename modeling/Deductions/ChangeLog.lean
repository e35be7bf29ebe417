import Deductions.Path
import Deductions.Text.Blank
import Deductions.Version

namespace Deductions

structure ChangeLogEntry where
  /-- The node that disappears, or whose expansion changes. -/
  path : Path
  /-- The version of the library in which it does. -/
  version : Version
  justification : String
  /-- Where the node is now, if it has moved. -/
  replacement : Option Path := none
deriving DecidableEq

structure ChangeLog where
  entries : List ChangeLogEntry := []
deriving DecidableEq

/-- Whether the entry gives a reason at all. -/
def ChangeLogEntry.isJustified (e : ChangeLogEntry) : Bool :=
  !e.justification.toList.all isBlank

inductive ChangeLogError where
  | malformed
  | unjustified (path : Path)
deriving DecidableEq

def ChangeLogError.message : ChangeLogError → String
  | .malformed => "invalid change log: <toml>"
  | .unjustified path => s!"change log entry for {path} has an empty justification"

/-- The log, if every entry gives a reason. -/
def ChangeLog.check (log : ChangeLog) : Except ChangeLogError ChangeLog :=
  match log.entries.find? fun e => !e.isJustified with
  | some e => .error (.unjustified e.path)
  | none => .ok log

end Deductions
