import Deductions.Graph.Json
import Deductions.Report

namespace Deductions

def Diagnostic.json (d : Diagnostic) : Json :=
  .object [("kind", .string d.kind.name), ("message", .string d.message),
    ("origin", .string d.kind.origin.name), ("path", .ofOption Path.json d.path),
    ("severity", .string d.kind.severity.name)]

/-- The members of an object in alphabetical order. -/
def Json.sortMembers : Json → Json
  | .object members => .object (members.mergeSort fun a b => (compare a.1 b.1).isLE)
  | other => other

def Report.json (r : Report) : Json :=
  .object [("change", .ofOption (fun change => .string change.text) r.change),
    ("diagnostics", .ofList Diagnostic.json (SortedSet.toList r.diagnostics)),
    ("ghost_edges", .ofList (fun e => e.json.sortMembers) r.ghosts),
    ("library", .string r.library), ("passed", .bool r.passed),
    ("previous", .ofOption Version.json r.previous), ("version", r.version.json)]

end Deductions
