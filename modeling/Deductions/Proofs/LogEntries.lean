import Deductions.Proofs.LossReports

namespace Deductions

/-- The report without what it says of one kind. -/
def Report.without (r : Report) (kind : DiagnosticKind) : Report :=
  { r with diagnostics := r.diagnostics.filter fun d _ => d.kind ≠ kind }

theorem Report.mem_without {r : Report} {kind : DiagnosticKind} {d : Diagnostic} :
    d ∈ SortedSet.toList (r.without kind).diagnostics ↔ d ∈ SortedSet.toList r.diagnostics ∧ d.kind ≠ kind := by
  simp only [without, SortedSet.toList, SortedMap.keys, SortedMap.filter, List.mem_map, List.mem_filter,
    decide_eq_true_eq]
  constructor
  · rintro ⟨e, ⟨member, other⟩, rfl⟩
    exact ⟨⟨e, member, rfl⟩, other⟩
  · rintro ⟨⟨e, member, rfl⟩, other⟩
    exact ⟨e, ⟨member, other⟩, rfl⟩

/-- Diagnostics that are warnings decide nothing. -/
theorem Report.passed_without {r : Report} {kind : DiagnosticKind} (warning : kind.severity = .warning) :
    (r.without kind).passed = r.passed := by
  have passes : ∀ r : Report, r.passed = true ↔ ∀ d ∈ SortedSet.toList r.diagnostics, d.isError = false := by
    intro r
    simp [passed, errors]
  rw [Bool.eq_iff_iff, passes, passes]
  constructor
  · intro harmless d member
    by_cases same : d.kind = kind
    · rw [Diagnostic.isError, same, warning]
      rfl
    · exact harmless d (mem_without.mpr ⟨member, same⟩)
  · exact fun harmless d member => harmless d (mem_without.mp member).1

namespace ChangeLog

/-- The log without the entries for other versions. -/
def onlyFor (log : ChangeLog) (version : Version) : ChangeLog :=
  ⟨log.entries.filter fun e => e.version = version⟩

theorem mem_onlyFor {log : ChangeLog} {version : Version} {e : ChangeLogEntry} :
    e ∈ (log.onlyFor version).entries ↔ e ∈ log.entries ∧ e.version = version := by
  rw [onlyFor, List.mem_filter, decide_eq_true_eq]

/-- Which paths a log names is told by its entries for the version. -/
theorem names_congr {log log' : ChangeLog} {version : Version}
    (same : ∀ e, e.version = version → (e ∈ log.entries ↔ e ∈ log'.entries)) :
    log.names version = log'.names version := by
  funext path
  rw [Bool.eq_iff_iff, names_iff, names_iff]
  constructor
  · rintro ⟨e, member, applies, atPath⟩
    exact ⟨e, (same e applies).mp member, applies, atPath⟩
  · rintro ⟨e, member, applies, atPath⟩
    exact ⟨e, (same e applies).mpr member, applies, atPath⟩

end ChangeLog

namespace Validation

section

variable (current : Snapshot) (previous : Option Snapshot) (options : ValidationOptions) (losses : Losses)

/-- What is found whatever the change log says. -/
def loglessFindings : List Diagnostic :=
  integrity current ++ multipleExpansions current ++
    (if options.warnUnusedAssertions then
      current.nodes.values.filterMap (unusedDiagnostic? current) else []) ++
    versionDiagnostics options current.version (!losses.isEmpty) previous ++
    current.narrations.entries.flatMap fun (owner, steps) => undelivered current owner steps

end

variable {current : Snapshot} {previous : Option Snapshot} {options : ValidationOptions} {losses : Losses}

/-- The findings by what they have to do with the change log: nothing, the paths that it names, or one
of its entries. -/
theorem mem_findings {log : ChangeLog} {d : Diagnostic} :
    d ∈ findings current previous log options losses ↔
      d ∈ loglessFindings current previous options losses ∨
      (d ∈ lossDiagnostics losses (log.names current.version) ∨
        d ∈ referenceDiagnostics losses (log.names current.version) current) ∨
      (∃ e ∈ log.entries, e.version = current.version ∧
        d ∈ entryDiagnostics losses (log.names current.version) current e) ∨
      ∃ e ∈ log.entries, e.version ≠ current.version ∧ d = staleDiagnostic current e := by
  have applicable : d ∈ (log.entriesFor current.version).flatMap
      (entryDiagnostics losses (log.names current.version) current) ↔ ∃ e ∈ log.entries,
        e.version = current.version ∧ d ∈ entryDiagnostics losses (log.names current.version) current e := by
    simp only [List.mem_flatMap, ChangeLog.mem_entriesFor, and_assoc]
  have stale : d ∈ (log.staleEntries current.version).map (staleDiagnostic current) ↔ ∃ e ∈ log.entries,
      e.version ≠ current.version ∧ d = staleDiagnostic current e := by
    simp only [ChangeLog.staleEntries, List.mem_map, List.mem_filter, bne_iff_ne, and_assoc,
      eq_comm (b := d)]
  rw [findings_eq, loglessFindings]
  simp only [List.mem_append, applicable, stale]
  constructor
  · rintro ((((((((integrity | loss) | reference) | multiple) | unused) | stale) | entry) | version) | undelivered)
    all_goals simp only [*, true_or, or_true]
  · rintro (((((integrity | multiple) | unused) | version) | undelivered) | (loss | reference) | entry | stale)
    all_goals simp only [*, true_or, or_true]

theorem kind_loglessFindings {d : Diagnostic} (member : d ∈ loglessFindings current previous options losses) :
    d.kind = .internalInvariant ∨ d.kind = .multipleExpansion ∨ d.kind = .unusedAssertion ∨
      (d.kind = .versionNotIncreased ∨ d.kind = .disallowedBreakingChange) ∨ d.kind = .undeliveredTarget := by
  simp only [loglessFindings, List.mem_append] at member
  rcases member with (((integrity | multiple) | unused) | version) | undelivered
  · exact .inl (kind_integrity d integrity)
  · exact .inr (.inl (kind_multipleExpansions d multiple))
  · exact .inr (.inr (.inl (kind_unused d unused)))
  · exact .inr (.inr (.inr (.inl (kind_versionDiagnostics d version))))
  · exact .inr (.inr (.inr (.inr (kind_undelivered d undelivered))))

/-- Entries for other versions are found to be stale, and nothing else is. -/
theorem mem_findings_onlyFor {log : ChangeLog} {d : Diagnostic} :
    d ∈ findings current previous (log.onlyFor current.version) options losses ↔
      d ∈ findings current previous log options losses ∧ d.kind ≠ .staleEntry := by
  have names : (log.onlyFor current.version).names current.version = log.names current.version :=
    ChangeLog.names_congr fun e applies => by rw [ChangeLog.mem_onlyFor, and_iff_left applies]
  rw [mem_findings, mem_findings, names]
  constructor
  · rintro (logless | onPath | ⟨e, member, applies, inside⟩ | ⟨e, member, other, _⟩)
    · refine ⟨.inl logless, ?_⟩
      rcases kind_loglessFindings logless with kind | kind | kind | (kind | kind) | kind
      all_goals
        rw [kind]
        decide
    · refine ⟨.inr (.inl onPath), fun stale => ?_⟩
      have onReference : IsOnReference d.kind :=
        onPath.elim (isOnReference_lossDiagnostics d) (isOnReference_referenceDiagnostics d)
      rw [stale] at onReference
      exact absurd onReference (by decide)
    · refine ⟨.inr (.inr (.inl ⟨e, (ChangeLog.mem_onlyFor.mp member).1, applies, inside⟩)), ?_⟩
      rcases kind_entryDiagnostics d inside with kind | kind
      all_goals
        rw [kind]
        decide
    · exact absurd (ChangeLog.mem_onlyFor.mp member).2 other
  · rintro ⟨logless | onPath | ⟨e, member, applies, inside⟩ | ⟨e, _, _, rfl⟩, notStale⟩
    · exact .inl logless
    · exact .inr (.inl onPath)
    · exact .inr (.inr (.inl ⟨e, ChangeLog.mem_onlyFor.mpr ⟨member, applies⟩, applies, inside⟩))
    · exact absurd rfl notStale

end Validation

/-- Validation reads the change log as a set of entries, and of those for other versions it only says
that they are there. -/
theorem validate_reads_entries (current : Snapshot) (previous : Option Snapshot) (options : ValidationOptions) :
    (∀ log log' : ChangeLog, (∀ e, e ∈ log.entries ↔ e ∈ log'.entries) →
      validate current previous log options = validate current previous log' options) ∧
    ∀ log : ChangeLog,
      validate current previous (log.onlyFor current.version) options =
        (validate current previous log options).without .staleEntry ∧
      (validate current previous (log.onlyFor current.version) options).passed =
        (validate current previous log options).passed := by
  refine ⟨fun log log' same => ?_, fun log => ?_⟩
  · have names : log.names current.version = log'.names current.version :=
      ChangeLog.names_congr fun e _ => same e
    have diagnostics : SortedSet.ofList (Validation.findings current previous log options
        (current.lossesSince previous)) = SortedSet.ofList (Validation.findings current previous log' options
          (current.lossesSince previous)) := by
      refine SortedSet.eq_of_mem_toList fun d => ?_
      rw [SortedSet.mem_toList_ofList, SortedSet.mem_toList_ofList, Validation.mem_findings,
        Validation.mem_findings, names]
      simp only [same]
    simp only [validate, diagnostics]
  · have restricted : validate current previous (log.onlyFor current.version) options =
        (validate current previous log options).without .staleEntry := by
      have diagnostics : SortedSet.ofList (Validation.findings current previous
          (log.onlyFor current.version) options (current.lossesSince previous)) =
            ((validate current previous log options).without .staleEntry).diagnostics := by
        refine SortedSet.eq_of_mem_toList fun d => ?_
        rw [Report.mem_without, SortedSet.mem_toList_ofList, Validation.mem_findings_onlyFor]
        exact and_congr_left fun _ => SortedSet.mem_toList_ofList.symm
      simp only [validate, diagnostics]
      rfl
    exact ⟨restricted, by rw [restricted, Report.passed_without rfl]⟩

/-- A library in which `a.P` proves one of the two assertions of `a.T`. -/
def provingSnapshot (major : UInt64) (target : String) : Snapshot :=
  let version := Version.plain major 0 0
  let claims := (Path.single "a").child "T"
  let proof := (Path.single "a").child "P"
  let node (path : Path) (kind : NodeKind) (children : List Path) : Path × Node :=
    (path, { path, version, kind, fields := .ofList [("en", path.name)], children })
  { library := "examples"
    version
    modules := .ofList [(.single "a", [claims, proof])]
    nodes := .ofList [node claims .deduction [claims.child "C", claims.child "D"],
      node (claims.child "C") .assertion [], node (claims.child "D") .assertion [], node proof .deduction []]
    edges := [.expansion ⟨proof, version⟩ [⟨claims.child target, version⟩] .declared] }

/-- The entry for a version in which `a.P` proves something else than before. -/
def retargetEntry (major : UInt64) : ChangeLogEntry where
  path := (Path.single "a").child "P"
  version := .plain major 0 0
  justification := "proves the other assertion"

theorem validate_reads_entries_retargetEntry :
    let first : ChangeLog := ⟨[retargetEntry 2, retargetEntry 1]⟩
    let second : ChangeLog := ⟨[retargetEntry 1, retargetEntry 2, retargetEntry 1]⟩
    (∀ e, e ∈ first.entries ↔ e ∈ second.entries) ∧
      validate (provingSnapshot 2 "D") (some (provingSnapshot 1 "C")) first {} =
        validate (provingSnapshot 2 "D") (some (provingSnapshot 1 "C")) second {} := by
  have same : ∀ e, e ∈ [retargetEntry 2, retargetEntry 1] ↔
      e ∈ [retargetEntry 1, retargetEntry 2, retargetEntry 1] := by
    intro e
    simp only [List.mem_cons, List.not_mem_nil, or_false]
    tauto
  exact ⟨same, (validate_reads_entries (provingSnapshot 2 "D") (some (provingSnapshot 1 "C")) {}).1 _ _ same⟩

end Deductions
