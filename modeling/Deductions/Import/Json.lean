import Deductions.Graph.Json
import Deductions.Import

namespace Deductions

def ImportTarget.json (t : ImportTarget) : Json :=
  match t.version with
  | none => .object [("path", t.path.json)]
  | some version => .object [("path", t.path.json), ("version", version.json)]

def ImportTarget.ofJson? (j : Json) : Option ImportTarget := do
  match ← j.record? [("path", .required), ("version", .optional)] with
  | [some path, version] =>
    return ⟨← Path.ofJson? path,
      ← (version.map (Json.nullable? Version.ofJson?)).getD (some none)⟩
  | _ => none

def ImportTable.json (t : ImportTable) : Json :=
  .object [("names", .ofStringMap ImportTarget.json t.names),
    ("globs", .ofList ImportTarget.json t.globs)]

def ImportTable.ofJson? (j : Json) : Option ImportTable := do
  match ← j.record? [("names", .optional), ("globs", .optional)] with
  | [names, globs] =>
    return ⟨← (names.map (Json.stringMap? ImportTarget.ofJson?)).getD (some SortedMap.empty),
      ← (globs.map (Json.list? ImportTarget.ofJson?)).getD (some [])⟩
  | _ => none

end Deductions
