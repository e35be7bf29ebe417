import Deductions.Snapshot
import Deductions.Version.Bump

namespace Deductions

/-- Whether the nodes are equal up to their versions. -/
def Node.sameContent (a b : Node) : Bool :=
  a.kind == b.kind && a.fields == b.fields && a.children == b.children &&
    a.narration == b.narration && a.wolog == b.wolog

/-- Whether each element of one list is one of the other. -/
def sameElements {α : Type} [BEq α] (a b : List α) : Bool :=
  a.all b.contains && b.all a.contains

namespace Snapshot

def nodePaths (s : Snapshot) : SortedSet Path := SortedSet.ofList (s.nodes.values.map Node.path)

/-- The targets of all expansions as sets, by their sources. -/
def expansionSets (s : Snapshot) : SortedMap Path (SortedSet Path) :=
  s.expansionMap.mapValues SortedSet.ofList

/-- The edges without their versions. -/
def edgeShapes (s : Snapshot) : List (EdgeKind × List Path) :=
  s.edges.map fun e => (e.kind, e.endpoints.map NodeRef.path)

/-- Whether a node has another content than the one at its path before. -/
def hasNewContent (previous : Snapshot) (n : Node) : Bool :=
  match previous.node? n.path with
  | some old => !old.sameContent n
  | none => false

/-- The kind of change from `previous` to `current`, where it is known whether expansion targets
were lost. -/
def change (previous current : Snapshot) (breaking : Bool) : ChangeKind :=
  if breaking then .major
  else if previous.nodePaths ≠ current.nodePaths ∨
      previous.expansionSets ≠ current.expansionSets then .minor
  else if current.nodes.values.any previous.hasNewContent ||
      !sameElements previous.edgeShapes current.edgeShapes then .patch
  else .none

end Snapshot

end Deductions
