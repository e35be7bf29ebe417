import Deductions.Snapshot

namespace Deductions

/-- An expansion that no longer reaches some of its targets. -/
structure Retarget where
  source : Path
  /-- The targets that it does not reach any more, sorted. -/
  removed : List Path
  /-- What it reaches now. -/
  now : List Path
deriving DecidableEq

/-- A target that no longer exists, or that an expansion of it does not reach any more. -/
structure LostTarget where
  path : Path
  /-- What expanded it, sorted. -/
  expanders : List Path
  /-- Whether it no longer exists. -/
  vanished : Bool
deriving DecidableEq

structure Losses where
  retargets : List Retarget := []
  targets : List LostTarget := []
deriving DecidableEq

/-- What became of the targets of `source`, unless it expands nothing now or still reaches all. -/
def retarget? (now : SortedMap Path (List Path)) (source : Path) (before : List Path) :
    Option Retarget := do
  let now ← now.find? source
  match SortedSet.toList (SortedSet.ofList (before.filter fun target => !now.contains target)) with
  | [] => none
  | removed => some ⟨source, removed, now⟩

namespace Losses

/-- The losses from one version to the next, by path. -/
def between (previous current : Snapshot) : Losses :=
  let now := current.expansionMap
  let retargets := previous.expansionMap.entries.filterMap fun (source, before) =>
    retarget? now source before
  let targets := previous.expanders.entries.filterMap fun (target, expanders) =>
    let vanished := previous.owns target && !current.contains target
    if vanished || retargets.any fun r => r.removed.contains target then
      some ⟨target, SortedSet.toList expanders, vanished⟩
    else none
  ⟨retargets, targets⟩

def isEmpty (l : Losses) : Bool := l.retargets.isEmpty && l.targets.isEmpty

def retargetOf? (l : Losses) (source : Path) : Option Retarget :=
  l.retargets.find? fun r => r.source == source

def target? (l : Losses) (path : Path) : Option LostTarget :=
  l.targets.find? fun t => t.path == path

end Losses

/-- Whether the change log accounts for a retarget: it names the source or all lost targets. -/
def Retarget.isAcknowledged (named : Path → Bool) (r : Retarget) : Bool :=
  named r.source || r.removed.all named

namespace Losses

/-- Whether the change log accounts for a target, if it is lost: it names the target, or accounts
for a retarget away from it. -/
def acknowledges (l : Losses) (named : Path → Bool) (target : Path) : Bool :=
  named target || l.retargets.any fun r => r.isAcknowledged named && r.removed.contains target

/-- Whether the target is lost and the change log accounts for it. -/
def excuses (l : Losses) (named : Path → Bool) (target : Path) : Bool :=
  (l.target? target).isSome && l.acknowledges named target

/-- Whether the target is lost, the change log does not account for it, and `source` expanded it. -/
def blames (l : Losses) (named : Path → Bool) (source target : Path) : Bool :=
  match l.target? target with
  | some lost => !l.acknowledges named target && lost.expanders.contains source
  | none => false

/-- Whether `source` was retargeted away from `target` and the change log does not account for
it. -/
def isIllegal (l : Losses) (named : Path → Bool) (target source : Path) : Bool :=
  match l.retargetOf? source with
  | some r => !r.isAcknowledged named && r.removed.contains target
  | none => false

/-- The paths that entries of a change log can be about. -/
def paths (l : Losses) : List Path :=
  l.targets.map LostTarget.path ++ l.retargets.flatMap fun r => r.source :: r.removed

/-- The part that an expander of a lost target played. -/
def role (l : Losses) (target source : Path) : GhostRole :=
  match l.retargetOf? source with
  | some r => if r.removed.contains target then .retarget else .expansion
  | none => .expansion

/-- The edges to lost targets from what expanded them. -/
def ghostEdges (l : Losses) (previous current : Snapshot) : List Edge :=
  l.targets.flatMap fun lost => lost.expanders.map fun source =>
    let version := if current.contains source then current.version else previous.version
    .ghost ⟨source, version⟩ ⟨lost.path, previous.version⟩ (l.role lost.path source)

end Losses

end Deductions
