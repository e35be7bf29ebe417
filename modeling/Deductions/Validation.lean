import Deductions.ChangeLog
import Deductions.FirstOccurrence
import Deductions.Loss
import Deductions.Report
import Deductions.Snapshot.Change

namespace Deductions

structure ValidationOptions where
  /-- Losses ask for a new major version. -/
  requireMajorBump : Bool := true
  /-- Assertions that nothing concludes or expands are reported. -/
  warnUnusedAssertions : Bool := true
deriving DecidableEq

namespace ChangeLog

/-- The entries for a version. -/
def entriesFor (log : ChangeLog) (version : Version) : List ChangeLogEntry :=
  log.entries.filter fun e => e.version == version

/-- The entries for other versions. -/
def staleEntries (log : ChangeLog) (version : Version) : List ChangeLogEntry :=
  log.entries.filter fun e => e.version != version

/-- Whether an entry for the version names the path. -/
def names (log : ChangeLog) (version : Version) (path : Path) : Bool :=
  (log.entriesFor version).any fun e => e.path == path

end ChangeLog

namespace Validation

def pathList (paths : List Path) : String := ", ".intercalate (paths.map Path.text)

def roleWord : GhostRole → String
  | .expansion => "expansion"
  | .narration => "narration"
  | .contradiction => "contra"
  | .alternativeCase => "versus"
  | .note => "annotation"
  | .retarget => "retargeted expansion"

def integrity (current : Snapshot) : List Diagnostic :=
  current.integrityIssues.map fun issue => ⟨.internalInvariant, some issue.path, issue.message⟩

section

variable (losses : Losses) (named : Path → Bool)

def retargetDiagnostic (r : Retarget) : Diagnostic :=
  let now := if r.now.isEmpty then "nothing" else pathList r.now
  ⟨.illegalRetarget, some r.source,
    s!"expansion retargeted from {pathList r.removed} to {now} without a change log entry"⟩

/-- The diagnostic on a lost target, unless those on retargets say it already. -/
def targetDiagnostic? (t : LostTarget) : Option Diagnostic :=
  let what := if t.vanished then "no longer exists" else "is no longer expanded"
  let what := s!"expansion target of {pathList t.expanders} {what}"
  if losses.acknowledges named t.path then
    some ⟨.loggedGhost, some t.path, s!"{what}; acknowledged in the change log"⟩
  else if t.expanders.all (losses.isIllegal named t.path) then none
  else some ⟨.unloggedDisappearance, some t.path, s!"{what} and no change log entry names it"⟩

def lossDiagnostics : List Diagnostic :=
  (losses.retargets.filter fun r => !r.isAcknowledged named).map retargetDiagnostic ++
    losses.targets.filterMap (targetDiagnostic? losses named)

/-- Whether a ghost edge to the path is in order. -/
def tolerates (path : Path) : Bool := named path || losses.excuses named path

/-- The ghost edges that are in order, one for each target. -/
def toleratedEdges (current : Snapshot) : List Edge :=
  firstBy (fun e : Edge => e.targets.map NodeRef.path)
    (current.edges.filter fun e =>
      e.isGhost && e.targets.all fun t => tolerates losses named t.path)

def toleratedDiagnostic? : Edge → Option Diagnostic
  | .ghost source target role =>
    if (losses.target? target.path).isSome then none
    else some ⟨.loggedGhost, some target.path,
      s!"{roleWord role} reference from {source.path} to {target}, which no longer exists; " ++
        "acknowledged in the change log"⟩
  | _ => none

/-- An end of an edge that is not there, and what is said about it at the source. -/
structure Dangling where
  source : Path
  target : NodeRef
  message : String

def danglingEnds (current : Snapshot) : Edge → List Dangling
  | .ghost source target role =>
    if tolerates losses named target.path || losses.blames named source.path target.path then []
    else [⟨source.path, target,
      s!"{roleWord role} reference to {target}, which no longer exists and no change log entry " ++
        "names it"⟩]
  | e => (e.endpoints.filter fun r => !current.resolves r).map fun r =>
      ⟨e.source.path, r, s!"{e.kind} edge endpoint {r} does not resolve"⟩

/-- The diagnostics on edges that lead nowhere, one for each source and end. -/
def referenceDiagnostics (current : Snapshot) : List Diagnostic :=
  (toleratedEdges losses named current).filterMap (toleratedDiagnostic? losses) ++
    (firstBy (fun d : Dangling => (d.source, d.target))
      (current.edges.flatMap (danglingEnds losses named current))).map fun d =>
        ⟨.danglingReference, some d.source, d.message⟩

/-- The diagnostics on entries of the change log for this version. -/
def entryDiagnostics (current : Snapshot) (e : ChangeLogEntry) : List Diagnostic :=
  let tolerated := (toleratedEdges losses named current).flatMap Edge.targets
  (if losses.paths.contains e.path || tolerated.any fun r => r.path == e.path then []
    else [⟨.unusedEntry, some e.path, "no disappearance or retarget matches this entry"⟩]) ++
  match e.replacement with
  | some replacement =>
    if current.contains replacement then []
    else [⟨.invalidReplacement, some e.path,
      s!"replacement {replacement} does not exist in version {current.version}"⟩]
  | none => []

end

def staleDiagnostic (current : Snapshot) (e : ChangeLogEntry) : Diagnostic :=
  ⟨.staleEntry, some e.path,
    s!"entry is for version {e.version} and does not apply to {current.version}"⟩

/-- Sources of several expansions and targets of several sources. -/
def multipleExpansions (current : Snapshot) : List Diagnostic :=
  let sources := current.expansions.map fun e => e.source.path
  let repeated := (firstOccurrences sources).filter fun source => 1 < sources.count source
  let contested := current.expanders.entries.filter fun e => 1 < e.2.size
  (repeated.map fun source =>
    ⟨.multipleExpansion, some source, s!"source of {sources.count source} expansion edges"⟩) ++
  contested.map fun (target, expanders) =>
    ⟨.multipleExpansion, some target, s!"expanded by {pathList (SortedSet.toList expanders)}"⟩

/-- Whether one of the steps concludes the node at the path. -/
def concludes (steps : List ResolvedStep) (path : Path) : Bool :=
  steps.any fun step => step.conclusions.any fun r => r.path == path

/-- The path of the top-level declaration that a path is or lies in. -/
def declarationOf (s : Snapshot) (path : Path) : Option Path :=
  (s.moduleOf path).bind fun module => path.take? (module.length + 1)

/-- Whether the node at the path is a target of an expansion. -/
def isExpanded (s : Snapshot) (path : Path) : Bool :=
  s.expansions.any fun e => e.targets.any fun r => r.path == path

/-- The narrations that count for an assertion are those inside its top-level declaration. -/
def unusedDiagnostic? (current : Snapshot) (n : Node) : Option Diagnostic := do
  if n.kind ≠ .assertion || isExpanded current n.path then none
  let scope ← declarationOf current n.path
  if current.narrations.entries.any fun (owner, steps) =>
      owner.startsWith scope && concludes steps n.path then none
  else some ⟨.unusedAssertion, some n.path,
    s!"never concluded in the narration of {scope} nor proved by a deduction"⟩

/-- The declared targets that a narration never concludes. -/
def undelivered (current : Snapshot) (owner : Path) (steps : List ResolvedStep) :
    List Diagnostic :=
  if steps.isEmpty then []
  else
    let targets := (current.expansionsFrom owner).flatMap Edge.targets
    (targets.filter fun t => !concludes steps t.path).map fun t =>
      ⟨.undeliveredTarget, some owner,
        s!"narration never concludes declared target {t.path}"⟩

/-- The version has to increase, and after a loss far enough. -/
def policyDiagnostics (options : ValidationOptions) (previous current : Version) (breaking : Bool) :
    List Diagnostic :=
  if current ≤ previous then
    [⟨.versionNotIncreased, none,
      s!"version {current} does not follow previous version {previous}"⟩]
  else if options.requireMajorBump && breaking && !previous.satisfies current .major then
    [⟨.disallowedBreakingChange, none,
      s!"expansion targets were lost or retargeted; version {current} must be at least " ++
        (previous.bump .major).text⟩]
  else []

/-- All that is found, in no order. -/
def findings (current : Snapshot) (previous : Option Snapshot) (log : ChangeLog)
    (options : ValidationOptions) (losses : Losses) : List Diagnostic :=
  let named := log.names current.version
  integrity current ++ lossDiagnostics losses named ++ referenceDiagnostics losses named current ++
    multipleExpansions current ++
    (if options.warnUnusedAssertions then
      current.nodes.values.filterMap (unusedDiagnostic? current) else []) ++
    (log.staleEntries current.version).map (staleDiagnostic current) ++
    (log.entriesFor current.version).flatMap (entryDiagnostics losses named current) ++
    (match previous with
      | some previous =>
        policyDiagnostics options previous.version current.version (!losses.isEmpty)
      | none => []) ++
    current.narrations.entries.flatMap fun (owner, steps) => undelivered current owner steps

end Validation

/-- The losses since the previous version, if there is one. -/
def Snapshot.lossesSince (current : Snapshot) : Option Snapshot → Losses
  | some previous => .between previous current
  | none => {}

/-- Validates a version of a library against the previous one, if there is one. -/
def validate (current : Snapshot) (previous : Option Snapshot) (log : ChangeLog)
    (options : ValidationOptions) : Report :=
  let losses := current.lossesSince previous
  let lost := match previous with
    | some previous => losses.ghostEdges previous current
    | none => []
  { library := current.library
    version := current.version
    previous := previous.map Snapshot.version
    diagnostics :=
      SortedSet.ofList (Validation.findings current previous log options losses)
    ghosts := lost ++ current.edges.filter Edge.isGhost
    change := previous.map fun previous => previous.change current (!losses.isEmpty) }

end Deductions
