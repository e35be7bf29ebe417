import Deductions.ChangeLog
import Deductions.Graph.Json

namespace Deductions

namespace ChangeLogEntry

def json (e : ChangeLogEntry) : Json :=
  .object ([("path", e.path.json), ("version", e.version.json),
    ("justification", .string e.justification)] ++
    match e.replacement with
    | some replacement => [("replacement", replacement.json)]
    | none => [])

def jsonLayout : List (String × Presence) :=
  [("path", .required), ("version", .required), ("justification", .required),
    ("replacement", .optional)]

def ofJson? (j : Json) : Option ChangeLogEntry := do
  match ← j.record? jsonLayout with
  | [some path, some version, some justification, replacement] =>
    return {
      path := ← Path.ofJson? path
      version := ← Version.ofJson? version
      justification := ← justification.string?
      replacement := ← (replacement.map (Json.nullable? Path.ofJson?)).getD (some none) }
  | _ => none

end ChangeLogEntry

end Deductions
