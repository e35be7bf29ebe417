import Deductions.Graph.Json
import Deductions.Snapshot

namespace Deductions

namespace Snapshot

def json (s : Snapshot) : Json :=
  .object [("library", .string s.library), ("version", s.version.json),
    ("modules", .ofPathMap (.ofList Path.json) s.modules),
    ("nodes", .ofPathMap Node.json s.nodes), ("edges", .ofList Edge.json s.edges),
    ("narrations", .ofPathMap (.ofList ResolvedStep.json) s.narrations),
    ("external", .ofList NodeRef.json (SortedSet.toList s.external))]

def layout : List (String × Presence) :=
  [("library", .required), ("version", .required), ("modules", .required), ("nodes", .required),
    ("edges", .required), ("narrations", .optional), ("external", .optional)]

def narrations? (j : Json) : Option (SortedMap Path (List ResolvedStep)) :=
  j.pathMap? (Json.list? ResolvedStep.ofJson?)

def external? (j : Json) : Option (SortedSet NodeRef) :=
  (j.list? NodeRef.ofJson?).map SortedSet.ofList

def ofJson? (j : Json) : Option Snapshot := do
  match ← j.record? layout with
  | [some library, some version, some modules, some nodes, some edges, narrations, external] =>
    return {
      library := ← library.string?
      version := ← Version.ofJson? version
      modules := ← modules.pathMap? (Json.list? Path.ofJson?)
      nodes := ← nodes.pathMap? Node.ofJson?
      edges := ← edges.list? Edge.ofJson?
      narrations := ← (narrations.map narrations?).getD (some SortedMap.empty)
      external := ← (external.map external?).getD (some SortedMap.empty) }
  | _ => none

end Snapshot

end Deductions
