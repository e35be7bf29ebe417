import Deductions.ChangeLog
import Deductions.Toml.Reader
import Deductions.Version.Tag

namespace Deductions

def Path.ofToml? (t : Toml) : Option Path := do (Path.parse (← t.string?)).toOption

def Version.ofToml? (t : Toml) : Option Version := do (Version.parse (← t.string?)).toOption

namespace ChangeLogEntry

def layout : List Toml.Member :=
  [⟨"path", true⟩, ⟨"version", true⟩, ⟨"justification", true⟩, ⟨"replacement", false⟩]

def ofToml? (t : Toml) : Option ChangeLogEntry := do
  match ← t.record? layout with
  | [some path, some version, some justification, replacement] =>
    return {
      path := ← Path.ofToml? path
      version := ← Version.ofToml? version
      justification := ← justification.string?
      replacement := ← replacement.mapM Path.ofToml? }
  | _ => none

/-- A line that binds a key to a text. -/
def line (key value : String) : List Char :=
  key.toList ++ [' ', '=', ' '] ++ Toml.quoted value.toList ++ ['\n']

/-- The table of an entry. -/
def toml (e : ChangeLogEntry) : List Char :=
  "[[entry]]\n".toList ++ line "path" e.path.text ++ line "version" e.version.text ++
    line "justification" e.justification ++
    match e.replacement with
    | some replacement => line "replacement" replacement.text
    | none => []

end ChangeLogEntry

namespace ChangeLog

def layout : List Toml.Member := [⟨"entry", false⟩]

def ofToml? (t : Toml) : Option ChangeLog := do
  match ← t.record? layout with
  | [some entries] => return ⟨← entries.list? ChangeLogEntry.ofToml?⟩
  | [none] => return ⟨[]⟩
  | _ => none

/-- Reads a change log, every entry of which has to give a reason. -/
def parse (text : String) : Except ChangeLogError ChangeLog :=
  match (Toml.parse text.toList).bind ofToml? with
  | none => .error .malformed
  | some log => log.check

/-- Writes a change log, with an empty line between two entries. -/
def text (log : ChangeLog) : String :=
  match log.entries with
  | [] => "entry = []\n"
  | entries => String.ofList (['\n'].intercalate (entries.map ChangeLogEntry.toml))

end ChangeLog

end Deductions
