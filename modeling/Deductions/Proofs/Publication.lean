import Deductions.Proofs.FirstOccurrence
import Deductions.Proofs.Losses

namespace Deductions

namespace ChangeLog

/-- Whether an entry for the version is about the path. -/
def Names (log : ChangeLog) (version : Version) (path : Path) : Prop :=
  ∃ e ∈ log.entries, e.version = version ∧ e.path = path

theorem mem_entriesFor {log : ChangeLog} {version : Version} {e : ChangeLogEntry} :
    e ∈ log.entriesFor version ↔ e ∈ log.entries ∧ e.version = version := by
  rw [entriesFor, List.mem_filter, beq_iff_eq]

theorem names_iff {log : ChangeLog} {version : Version} {path : Path} :
    log.names version path = true ↔ log.Names version path := by
  simp [names, Names, mem_entriesFor, and_assoc]

end ChangeLog

section

variable (log : ChangeLog) (previous : Option Snapshot) (current : Snapshot)

/-- Whether the log names the source of a retarget or all targets it lost. -/
def IsAcknowledgedRetarget (source : Path) : Prop :=
  log.Names current.version source ∨
    ∀ target, Removes previous current source target → log.Names current.version target

/-- Whether the log names a lost target or accounts for a retarget away from it. -/
def IsAcknowledgedLoss (target : Path) : Prop :=
  log.Names current.version target ∨ ∃ source,
    Removes previous current source target ∧ IsAcknowledgedRetarget log previous current source

/-- Whether `current` can be published after `previous`, if there is one. -/
structure IsPublishable (options : ValidationOptions) : Prop where
  integrity : current.integrityIssues = []
  retargets : ∀ source, IsRetargeted previous current source →
    IsAcknowledgedRetarget log previous current source
  losses : ∀ target, IsLost previous current target → IsAcknowledgedLoss log previous current target
  ghosts : ∀ e ∈ current.edges, e.isGhost = true → ∀ t ∈ e.targets,
    log.Names current.version t.path ∨
      IsLost previous current t.path ∧ IsAcknowledgedLoss log previous current t.path
  endpoints : ∀ e ∈ current.edges, e.isGhost = false → ∀ r ∈ e.endpoints, current.resolves r = true
  sources : (current.expansions.map fun e => e.source.path).Nodup
  targets : ∀ source source' target, current.Expands source target → current.Expands source' target →
    source = source'
  replacements : ∀ e ∈ log.entries, e.version = current.version → ∀ r ∈ e.replacement,
    current.contains r = true
  increases : ∀ before ∈ previous, before.version < current.version
  bump : ∀ before ∈ previous, options.requireMajorBump = true →
    ((∃ source, IsRetargeted previous current source) ∨ ∃ target, IsLost previous current target) →
    before.version.satisfies current.version .major = true

end

section

variable {log : ChangeLog} {previous : Option Snapshot} {current : Snapshot} {losses : Losses}

theorem Losses.Describe.isRetargeted (describe : losses.Describe previous current) {r : Retarget}
    (member : r ∈ losses.retargets) : IsRetargeted previous current r.source := by
  obtain ⟨target, removed⟩ := List.exists_mem_of_ne_nil _ (describe.nonempty r member)
  exact isRetargeted_iff.mpr ⟨target, (describe.removed r member target).mp removed⟩

theorem Losses.Describe.isAcknowledged_iff (describe : losses.Describe previous current) {r : Retarget}
    (member : r ∈ losses.retargets) : r.isAcknowledged (log.names current.version) = true ↔
      IsAcknowledgedRetarget log previous current r.source := by
  simp only [Retarget.isAcknowledged, IsAcknowledgedRetarget, Bool.or_eq_true, List.all_eq_true,
    ChangeLog.names_iff, describe.removed r member]

theorem Losses.Describe.acknowledges_iff (describe : losses.Describe previous current)
    {target : Path} : losses.acknowledges (log.names current.version) target = true ↔
      IsAcknowledgedLoss log previous current target := by
  simp only [Losses.acknowledges, IsAcknowledgedLoss, Bool.or_eq_true, List.any_eq_true,
    Bool.and_eq_true, List.contains_iff_mem, ChangeLog.names_iff]
  refine or_congr_right ⟨?_, ?_⟩
  · rintro ⟨r, member, acknowledged, removed⟩
    exact ⟨r.source, (describe.removed r member target).mp removed,
      (describe.isAcknowledged_iff member).mp acknowledged⟩
  · rintro ⟨source, removes, acknowledged⟩
    obtain ⟨r, member, rfl⟩ := describe.retargets source (isRetargeted_iff.mpr ⟨target, removes⟩)
    exact ⟨r, member, (describe.isAcknowledged_iff member).mpr acknowledged,
      (describe.removed r member target).mpr removes⟩

theorem Losses.Describe.isSome_target? (describe : losses.Describe previous current)
    {target : Path} : (losses.target? target).isSome = true ↔ IsLost previous current target := by
  rw [Losses.target?, List.find?_isSome]
  constructor
  · rintro ⟨t, member, same⟩
    exact beq_iff_eq.mp same ▸ describe.lost t member
  · intro lost
    obtain ⟨t, member, same⟩ := describe.targets target lost
    exact ⟨t, member, beq_iff_eq.mpr same⟩

theorem Losses.Describe.tolerates_iff (describe : losses.Describe previous current)
    {target : Path} : Validation.tolerates losses (log.names current.version) target = true ↔
      log.Names current.version target ∨
        IsLost previous current target ∧ IsAcknowledgedLoss log previous current target := by
  rw [Validation.tolerates, Bool.or_eq_true, Losses.excuses, Bool.and_eq_true, ChangeLog.names_iff,
    describe.isSome_target?, describe.acknowledges_iff]

theorem Losses.Describe.isEmpty_iff (describe : losses.Describe previous current) :
    (!losses.isEmpty) = true ↔
      (∃ source, IsRetargeted previous current source) ∨ ∃ target, IsLost previous current target := by
  rw [Losses.isEmpty, Bool.not_and, Bool.or_eq_true, Bool.not_eq_true', Bool.not_eq_true',
    List.isEmpty_eq_false_iff_exists_mem, List.isEmpty_eq_false_iff_exists_mem]
  constructor
  · rintro (⟨r, member⟩ | ⟨t, member⟩)
    · exact .inl ⟨r.source, describe.isRetargeted member⟩
    · exact .inr ⟨t.path, describe.lost t member⟩
  · rintro (⟨source, retargeted⟩ | ⟨target, lost⟩)
    · obtain ⟨r, member, _⟩ := describe.retargets source retargeted
      exact .inl ⟨r, member⟩
    · obtain ⟨t, member, _⟩ := describe.targets target lost
      exact .inr ⟨t, member⟩

end

namespace Validation

/-- Whether no diagnostic of the list is an error. -/
def Harmless (l : List Diagnostic) : Prop := ∀ d ∈ l, d.isError = false

theorem harmless_append {l l' : List Diagnostic} : Harmless (l ++ l') ↔ Harmless l ∧ Harmless l' :=
  List.forall_mem_append

theorem harmless_of_kind (kind : DiagnosticKind) (warning : kind.severity = .warning)
    {l : List Diagnostic} (same : ∀ d ∈ l, d.kind = kind) : Harmless l := by
  intro d member
  rw [Diagnostic.isError, same d member, warning]
  rfl

theorem harmless_map_iff {α : Type} {f : α → Diagnostic} (kind : DiagnosticKind)
    (error : kind.severity = .error) (same : ∀ a, (f a).kind = kind) {l : List α} :
    Harmless (l.map f) ↔ l = [] := by
  constructor
  · intro harmless
    refine List.eq_nil_iff_forall_not_mem.mpr fun a member => ?_
    have isError : (f a).isError = true := by
      rw [Diagnostic.isError, same a, error]
      rfl
    rw [harmless (f a) (List.mem_map_of_mem member)] at isError
    cases isError
  · rintro rfl
    exact fun d member => absurd member List.not_mem_nil

theorem kind_integrity {current : Snapshot} : ∀ d ∈ integrity current, d.kind = .internalInvariant := by
  intro d member
  obtain ⟨_, _, rfl⟩ := List.mem_map.mp member
  rfl

theorem harmless_integrity {current : Snapshot} :
    Harmless (integrity current) ↔ current.integrityIssues = [] :=
  harmless_map_iff .internalInvariant rfl fun _ => rfl

section

variable {log : ChangeLog} {previous : Option Snapshot} {current : Snapshot} {losses : Losses}

/-- A loss that is not reported at the target is one by retargets, and these are reported. -/
theorem harmless_lossDiagnostics (describe : losses.Describe previous current) :
    Harmless (lossDiagnostics losses (log.names current.version)) ↔
      (∀ source, IsRetargeted previous current source →
        IsAcknowledgedRetarget log previous current source) ∧
      ∀ target, IsLost previous current target → IsAcknowledgedLoss log previous current target := by
  have retargets : Harmless ((losses.retargets.filter fun r =>
      !r.isAcknowledged (log.names current.version)).map retargetDiagnostic) ↔
      ∀ source, IsRetargeted previous current source →
        IsAcknowledgedRetarget log previous current source := by
    rw [harmless_map_iff .illegalRetarget rfl fun _ => rfl, List.filter_eq_nil_iff]
    simp only [Bool.not_eq_true', Bool.not_eq_false]
    constructor
    · intro acknowledged source retargeted
      obtain ⟨r, member, rfl⟩ := describe.retargets source retargeted
      exact (describe.isAcknowledged_iff member).mp (acknowledged r member)
    · intro acknowledged r member
      exact (describe.isAcknowledged_iff member).mpr
        (acknowledged r.source (describe.isRetargeted member))
  rw [lossDiagnostics, harmless_append, retargets]
  refine and_congr_right fun acknowledgedRetargets => ?_
  -- no retarget is illegal, so that no loss is left to one
  have legal : ∀ target source,
      losses.isIllegal (log.names current.version) target source = false := by
    intro target source
    unfold Losses.isIllegal
    split
    next r found =>
      have member : r ∈ losses.retargets := List.mem_of_find?_eq_some found
      rw [(describe.isAcknowledged_iff member).mpr
        (acknowledgedRetargets r.source (describe.isRetargeted member))]
      rfl
    · rfl
  have reported : ∀ t ∈ losses.targets,
      t.expanders.all (losses.isIllegal (log.names current.version) t.path) = false := by
    intro t member
    obtain ⟨before, isPrevious, ⟨source, expands⟩, _⟩ := describe.lost t member
    have expander := (describe.expanders t member source).mpr ⟨before, isPrevious, expands⟩
    rw [List.all_eq_false]
    exact ⟨source, expander, by simp [legal]⟩
  constructor
  · intro harmless target lost
    obtain ⟨t, member, rfl⟩ := describe.targets target lost
    refine describe.acknowledges_iff.mp (Decidable.by_contra fun unacknowledged => ?_)
    have diagnostic := harmless _ (List.mem_filterMap.mpr ⟨t, member, by
      rw [targetDiagnostic?, if_neg unacknowledged, if_neg (by simp [reported t member])]⟩)
    cases diagnostic
  · intro acknowledged
    refine harmless_of_kind .loggedGhost rfl fun d member => ?_
    obtain ⟨t, member, isDiagnostic⟩ := List.mem_filterMap.mp member
    rw [targetDiagnostic?, if_pos (describe.acknowledges_iff.mpr
      (acknowledged t.path (describe.lost t member)))] at isDiagnostic
    cases isDiagnostic
    rfl

theorem danglingEnds_eq_nil_of_ghost (describe : losses.Describe previous current)
    (acknowledged : ∀ target, IsLost previous current target →
      IsAcknowledgedLoss log previous current target)
    {e : Edge} (ghost : e.isGhost = true) :
    danglingEnds losses (log.names current.version) current e = [] ↔ ∀ t ∈ e.targets,
      log.Names current.version t.path ∨
        IsLost previous current t.path ∧ IsAcknowledgedLoss log previous current t.path := by
  have blameless : ∀ source target,
      losses.blames (log.names current.version) source target = false := by
    intro source target
    unfold Losses.blames
    split
    next found =>
      have lost := describe.isSome_target?.mp (Option.isSome_of_eq_some found)
      rw [describe.acknowledges_iff.mpr (acknowledged target lost)]
      rfl
    · rfl
  cases e with
  | ghost source target role =>
    simp [danglingEnds, Edge.targets, blameless, ← describe.tolerates_iff]
  | _ => cases ghost

theorem danglingEnds_eq_nil_of_not_ghost {e : Edge} (noGhost : e.isGhost = false) {named : Path → Bool} :
    danglingEnds losses named current e = [] ↔ ∀ r ∈ e.endpoints, current.resolves r = true := by
  have ends : danglingEnds losses named current e =
      (e.endpoints.filter fun r => !current.resolves r).map fun r =>
        ⟨e.source.path, r, s!"{e.kind} edge endpoint {r} does not resolve"⟩ := by
    cases e with
    | ghost => cases noGhost
    | _ => rfl
  rw [ends, List.map_eq_nil_iff, List.filter_eq_nil_iff]
  simp only [Bool.not_eq_true', Bool.not_eq_false]

/-- A reference that is not reported at its source goes to a loss that is. -/
theorem harmless_referenceDiagnostics (describe : losses.Describe previous current)
    (acknowledged : ∀ target, IsLost previous current target →
      IsAcknowledgedLoss log previous current target) :
    Harmless (referenceDiagnostics losses (log.names current.version) current) ↔
      (∀ e ∈ current.edges, e.isGhost = true → ∀ t ∈ e.targets,
        log.Names current.version t.path ∨
          IsLost previous current t.path ∧ IsAcknowledgedLoss log previous current t.path) ∧
      ∀ e ∈ current.edges, e.isGhost = false → ∀ r ∈ e.endpoints, current.resolves r = true := by
  have tolerated : Harmless ((toleratedEdges losses (log.names current.version) current).filterMap
      (toleratedDiagnostic? losses)) := by
    refine harmless_of_kind .loggedGhost rfl fun d member => ?_
    obtain ⟨e, _, isDiagnostic⟩ := List.mem_filterMap.mp member
    unfold toleratedDiagnostic? at isDiagnostic
    repeat' split at isDiagnostic
    all_goals cases isDiagnostic <;> rfl
  rw [referenceDiagnostics, harmless_append, and_iff_right tolerated,
    harmless_map_iff .danglingReference rfl fun _ => rfl, firstBy_eq_nil, List.flatMap_eq_nil_iff]
  constructor
  · intro none
    exact ⟨fun e member ghost =>
        (danglingEnds_eq_nil_of_ghost describe acknowledged ghost).mp (none e member),
      fun e member noGhost => (danglingEnds_eq_nil_of_not_ghost noGhost).mp (none e member)⟩
  · rintro ⟨ghosts, endpoints⟩ e member
    cases ghost : e.isGhost with
    | true => exact (danglingEnds_eq_nil_of_ghost describe acknowledged ghost).mpr (ghosts e member ghost)
    | false => exact (danglingEnds_eq_nil_of_not_ghost ghost).mpr (endpoints e member ghost)

theorem harmless_entryDiagnostics {named : Path → Bool} :
    Harmless ((log.entriesFor current.version).flatMap (entryDiagnostics losses named current)) ↔
      ∀ e ∈ log.entries, e.version = current.version → ∀ r ∈ e.replacement,
        current.contains r = true := by
  have entry : ∀ e : ChangeLogEntry, Harmless (entryDiagnostics losses named current e) ↔
      ∀ r ∈ e.replacement, current.contains r = true := by
    intro e
    have unused : Harmless (if losses.paths.contains e.path ||
        ((toleratedEdges losses named current).flatMap Edge.targets).any fun r => r.path == e.path then []
        else [⟨.unusedEntry, some e.path, "no disappearance or retarget matches this entry"⟩]) := by
      refine harmless_of_kind .unusedEntry rfl fun d member => ?_
      split at member
      · cases member
      · rw [List.mem_singleton.mp member]
    rw [entryDiagnostics, harmless_append, and_iff_right unused]
    cases e.replacement with
    | none => simp [Harmless]
    | some replacement =>
      cases contained : current.contains replacement with
      | true => simp [Harmless, contained]
      | false => simp [Harmless, contained, Diagnostic.isError, DiagnosticKind.severity]
  simp only [← entry, Harmless, List.mem_flatMap, ChangeLog.mem_entriesFor]
  constructor
  · exact fun harmless e member version d inside => harmless d ⟨e, ⟨member, version⟩, inside⟩
  · rintro harmless d ⟨e, ⟨member, version⟩, inside⟩
    exact harmless e member version d inside

end

theorem harmless_multipleExpansions {current : Snapshot} : Harmless (multipleExpansions current) ↔
    (current.expansions.map fun e => e.source.path).Nodup ∧
      ∀ source source' target, current.Expands source target → current.Expands source' target →
        source = source' := by
  rw [multipleExpansions, harmless_append, harmless_map_iff .multipleExpansion rfl fun _ => rfl,
    harmless_map_iff .multipleExpansion rfl fun _ => rfl]
  refine and_congr ?_ ?_
  · rw [List.filter_eq_nil_iff, List.nodup_iff_count]
    simp only [mem_firstOccurrences, decide_eq_true_eq, Nat.not_lt]
    refine ⟨fun few source => ?_, fun few source _ => few source⟩
    by_cases member : source ∈ current.expansions.map fun e => e.source.path
    · exact few source member
    · rw [List.count_eq_zero_of_not_mem member]
      exact Nat.zero_le 1
  · rw [List.filter_eq_nil_iff]
    simp only [decide_eq_true_eq, Nat.not_lt, SortedSet.size_le_one_iff, Prod.forall,
      ← SortedMap.find?_eq_some_iff]
    constructor
    · intro single source source' target expands expands'
      obtain ⟨sources, found⟩ := Option.isSome_iff_exists.mp
        (Snapshot.isSome_expanders.mpr ⟨source, expands⟩)
      exact single target sources found source ((Snapshot.mem_expanders found source).mpr expands)
        source' ((Snapshot.mem_expanders found source').mpr expands')
    · intro single target sources found source member source' member'
      exact single source source' target ((Snapshot.mem_expanders found source).mp member)
        ((Snapshot.mem_expanders found source').mp member')

theorem le_iff_not_lt {previous current : Version} : current ≤ previous ↔ ¬ previous < current := by
  change (compare current previous).isLE = true ↔ ¬ compare previous current = .lt
  rw [Ordering.isLE_iff_ne_gt, Std.OrientedCmp.gt_iff_lt]

theorem harmless_policyDiagnostics {options : ValidationOptions} {previous current : Version}
    {breaking : Bool} : Harmless (policyDiagnostics options previous current breaking) ↔
      previous < current ∧ (options.requireMajorBump = true → breaking = true →
        previous.satisfies current .major = true) := by
  unfold policyDiagnostics
  split
  next notAfter =>
    refine iff_of_false (fun harmless => ?_) fun ⟨after, _⟩ => le_iff_not_lt.mp notAfter after
    cases harmless _ (List.mem_singleton.mpr rfl)
  next after =>
    rw [le_iff_not_lt, Decidable.not_not] at after
    rw [and_iff_right after]
    split
    next refused =>
      simp only [Bool.and_eq_true, Bool.not_eq_true'] at refused
      obtain ⟨⟨required, breaking⟩, tooSmall⟩ := refused
      refine iff_of_false (fun harmless => ?_) fun enough => ?_
      · cases harmless _ (List.mem_singleton.mpr rfl)
      · rw [enough required breaking] at tooSmall
        cases tooSmall
    next accepted =>
      refine iff_of_true (fun d member => absurd member List.not_mem_nil) fun required breaking => ?_
      simpa [required, breaking] using accepted

theorem kind_unused {current : Snapshot} {options : ValidationOptions} :
    ∀ d ∈ (if options.warnUnusedAssertions then
      current.nodes.values.filterMap (unusedDiagnostic? current) else []), d.kind = .unusedAssertion := by
  intro d member
  split at member
  · obtain ⟨n, _, isDiagnostic⟩ := List.mem_filterMap.mp member
    unfold unusedDiagnostic? at isDiagnostic
    split at isDiagnostic
    · cases isDiagnostic
    · obtain ⟨scope, _, isDiagnostic⟩ := Option.bind_eq_some_iff.mp isDiagnostic
      split at isDiagnostic
      all_goals cases isDiagnostic <;> rfl
  · cases member

theorem kind_stale {current : Snapshot} {log : ChangeLog} :
    ∀ d ∈ (log.staleEntries current.version).map (staleDiagnostic current), d.kind = .staleEntry := by
  intro d member
  obtain ⟨_, _, rfl⟩ := List.mem_map.mp member
  rfl

theorem kind_undelivered {current : Snapshot} :
    ∀ d ∈ current.narrations.entries.flatMap fun (owner, steps) => undelivered current owner steps,
      d.kind = .undeliveredTarget := by
  intro d member
  obtain ⟨⟨owner, steps⟩, _, inside⟩ := List.mem_flatMap.mp member
  dsimp only [undelivered] at inside
  split at inside
  · cases inside
  · obtain ⟨t, _, rfl⟩ := List.mem_map.mp inside
    rfl

/-- The diagnostics on the version, if there is one before. -/
def versionDiagnostics (options : ValidationOptions) (current : Version) (breaking : Bool) :
    Option Snapshot → List Diagnostic
  | some previous => policyDiagnostics options previous.version current breaking
  | none => []

theorem harmless_versionDiagnostics {options : ValidationOptions} {current : Version}
    {breaking : Bool} {previous : Option Snapshot} :
    Harmless (versionDiagnostics options current breaking previous) ↔ ∀ before ∈ previous,
      before.version < current ∧ (options.requireMajorBump = true → breaking = true →
        before.version.satisfies current .major = true) := by
  cases previous with
  | none => simp [versionDiagnostics, Harmless]
  | some before => simp [versionDiagnostics, harmless_policyDiagnostics]

theorem findings_eq (current : Snapshot) (previous : Option Snapshot) (log : ChangeLog)
    (options : ValidationOptions) (losses : Losses) :
    findings current previous log options losses =
      integrity current ++ lossDiagnostics losses (log.names current.version) ++
        referenceDiagnostics losses (log.names current.version) current ++
        multipleExpansions current ++
        (if options.warnUnusedAssertions then
          current.nodes.values.filterMap (unusedDiagnostic? current) else []) ++
        (log.staleEntries current.version).map (staleDiagnostic current) ++
        (log.entriesFor current.version).flatMap
          (entryDiagnostics losses (log.names current.version) current) ++
        versionDiagnostics options current.version (!losses.isEmpty) previous ++
        current.narrations.entries.flatMap fun (owner, steps) => undelivered current owner steps := by
  cases previous <;> rfl

theorem harmless_findings {log : ChangeLog} {previous : Option Snapshot} {current : Snapshot}
    {losses : Losses} (describe : losses.Describe previous current) {options : ValidationOptions} :
    Harmless (findings current previous log options losses) ↔
      IsPublishable log previous current options := by
  simp only [findings_eq, harmless_append, harmless_integrity, harmless_lossDiagnostics describe,
    harmless_multipleExpansions, and_iff_left (harmless_of_kind _ rfl kind_unused),
    and_iff_left (harmless_of_kind _ rfl kind_stale), harmless_entryDiagnostics,
    harmless_versionDiagnostics, describe.isEmpty_iff,
    and_iff_left (harmless_of_kind _ rfl kind_undelivered)]
  constructor
  · rintro ⟨⟨⟨⟨⟨integrity, retargets, losses⟩, references⟩, sources, targets⟩, replacements⟩, versions⟩
    obtain ⟨ghosts, endpoints⟩ := (harmless_referenceDiagnostics describe losses).mp references
    exact ⟨integrity, retargets, losses, ghosts, endpoints, sources, targets, replacements,
      fun before isPrevious => (versions before isPrevious).1,
      fun before isPrevious => (versions before isPrevious).2⟩
  · intro publishable
    exact ⟨⟨⟨⟨⟨publishable.integrity, publishable.retargets, publishable.losses⟩,
      (harmless_referenceDiagnostics describe publishable.losses).mpr
        ⟨publishable.ghosts, publishable.endpoints⟩⟩,
      publishable.sources, publishable.targets⟩, publishable.replacements⟩,
      fun before isPrevious => ⟨publishable.increases before isPrevious,
        publishable.bump before isPrevious⟩⟩

end Validation

/-- A version passes validation just if it can be published. -/
theorem validate_passed_iff (current : Snapshot) (previous : Option Snapshot) (log : ChangeLog)
    (options : ValidationOptions) : (validate current previous log options).passed = true ↔
      IsPublishable log previous current options := by
  rw [← Validation.harmless_findings (current.lossesSince_describe previous)]
  simp [validate, Report.passed, Report.errors, Validation.Harmless]

end Deductions
