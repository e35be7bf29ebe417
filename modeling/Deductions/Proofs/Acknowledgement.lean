import Deductions.Proofs.LogEntries

namespace Deductions

section

variable {losses : Losses} {named named' : Path → Bool} (more : ∀ path, named path = true → named' path = true)
include more

theorem Retarget.isAcknowledged_mono {r : Retarget} (acknowledged : r.isAcknowledged named = true) :
    r.isAcknowledged named' = true := by
  rw [isAcknowledged, Bool.or_eq_true, List.all_eq_true] at acknowledged ⊢
  exact acknowledged.imp (more _) fun all target removed => more target (all target removed)

namespace Losses

theorem acknowledges_mono {target : Path} (acknowledged : losses.acknowledges named target = true) :
    losses.acknowledges named' target = true := by
  simp only [acknowledges, Bool.or_eq_true, List.any_eq_true, Bool.and_eq_true] at acknowledged ⊢
  refine acknowledged.imp (more target) ?_
  rintro ⟨r, member, acknowledgedRetarget, removed⟩
  exact ⟨r, member, r.isAcknowledged_mono more acknowledgedRetarget, removed⟩

/-- A target that is not accounted for has the same illegal retargets as before: to account for one of
them would be to account for the target. -/
theorem isIllegal_congr {target source : Path} (unacknowledged : losses.acknowledges named' target = false) :
    losses.isIllegal named' target source = losses.isIllegal named target source := by
  unfold isIllegal
  split
  next r found =>
    have member : r ∈ losses.retargets := List.mem_of_find?_eq_some found
    cases removed : r.removed.contains target with
    | false => rw [Bool.and_false, Bool.and_false]
    | true =>
      have illegal' : r.isAcknowledged named' = false := by
        refine Bool.eq_false_iff.mpr fun acknowledged => ?_
        have account : losses.acknowledges named' target = true := by
          rw [acknowledges, Bool.or_eq_true, List.any_eq_true]
          exact .inr ⟨r, member, by rw [acknowledged, removed]; rfl⟩
        rw [unacknowledged] at account
        cases account
      have illegal : r.isAcknowledged named = false :=
        Bool.eq_false_iff.mpr (mt (r.isAcknowledged_mono more) (Bool.eq_false_iff.mp illegal'))
      rw [illegal, illegal']
  · rfl

theorem blames_congr {source target : Path} (unacknowledged : losses.acknowledges named' target = false) :
    losses.blames named' source target = losses.blames named source target := by
  have before : losses.acknowledges named target = false :=
    Bool.eq_false_iff.mpr (mt (acknowledges_mono more) (Bool.eq_false_iff.mp unacknowledged))
  rw [blames, blames, unacknowledged, before]

end Losses

namespace Validation

theorem tolerates_mono {target : Path} (tolerated : tolerates losses named target = true) :
    tolerates losses named' target = true := by
  simp only [tolerates, Losses.excuses, Bool.or_eq_true, Bool.and_eq_true] at tolerated ⊢
  exact tolerated.imp (more target) (And.imp_right (Losses.acknowledges_mono more))

/-- What dangles with more paths named dangled before. -/
theorem mem_danglingEnds_of_more {current : Snapshot} {e : Edge} {d : Dangling}
    (member : d ∈ danglingEnds losses named' current e) : d ∈ danglingEnds losses named current e := by
  cases e with
  | ghost source target role =>
    rw [danglingEnds] at member
    split at member
    · cases member
    next dangles =>
      rw [Bool.or_eq_true, not_or, Bool.not_eq_true, Bool.not_eq_true] at dangles
      obtain ⟨untolerated, blameless⟩ := dangles
      have untoleratedBefore : tolerates losses named target.path = false :=
        Bool.eq_false_iff.mpr (mt (tolerates_mono more) (Bool.eq_false_iff.mp untolerated))
      have blamelessBefore : losses.blames named source.path target.path = false := by
        cases unlost : losses.target? target.path with
        | none => rw [Losses.blames, unlost]
        | some lost =>
          -- of a lost target, to be tolerated is to be accounted for
          have unacknowledged : losses.acknowledges named' target.path = false := by
            rw [tolerates, Losses.excuses, unlost, Bool.or_eq_false_iff] at untolerated
            simpa using untolerated.2
          rw [← Losses.blames_congr more unacknowledged, blameless]
      rw [danglingEnds, untoleratedBefore, blamelessBefore]
      exact member
  | _ => exact member

end Validation

end

namespace Validation

/-- Whether every error of one list is in the other one too, in kind and path. -/
def AreErrorsOf (l l' : List Diagnostic) : Prop :=
  ∀ d ∈ l, d.isError = true → ∃ d' ∈ l', d'.kind = d.kind ∧ d'.path = d.path

theorem AreErrorsOf.exists_isError {l l' : List Diagnostic} (errors : AreErrorsOf l l') {d : Diagnostic}
    (member : d ∈ l) (isError : d.isError = true) :
    ∃ d' ∈ l', d'.isError = true ∧ d'.kind = d.kind ∧ d'.path = d.path := by
  obtain ⟨d', member', kind, path⟩ := errors d member isError
  refine ⟨d', member', ?_, kind, path⟩
  rw [Diagnostic.isError, kind]
  exact isError

section

variable {losses : Losses} {named named' : Path → Bool} (more : ∀ path, named path = true → named' path = true)
include more

theorem areErrorsOf_lossDiagnostics :
    AreErrorsOf (lossDiagnostics losses named') (lossDiagnostics losses named) := by
  intro d member isError
  refine ⟨d, ?_, rfl, rfl⟩
  rcases List.mem_append.mp member with retargets | targets
  · obtain ⟨r, inside, rfl⟩ := List.mem_map.mp retargets
    obtain ⟨inside, illegal⟩ := List.mem_filter.mp inside
    refine List.mem_append_left _ (List.mem_map_of_mem (List.mem_filter.mpr ⟨inside, ?_⟩))
    rw [Bool.not_eq_true'] at illegal ⊢
    exact Bool.eq_false_iff.mpr (mt (r.isAcknowledged_mono more) (Bool.eq_false_iff.mp illegal))
  · obtain ⟨t, inside, isDiagnostic⟩ := List.mem_filterMap.mp targets
    refine List.mem_append_right _ (List.mem_filterMap.mpr ⟨t, inside, ?_⟩)
    rcases (targetDiagnostic?_cases isDiagnostic).2 with ⟨logged, _⟩ | ⟨_, unacknowledged, _⟩
    · rw [Diagnostic.isError, logged] at isError
      cases isError
    · have before : losses.acknowledges named t.path = false :=
        Bool.eq_false_iff.mpr (mt (Losses.acknowledges_mono more) (Bool.eq_false_iff.mp unacknowledged))
      have illegal : losses.isIllegal named' t.path = losses.isIllegal named t.path :=
        funext fun _ => Losses.isIllegal_congr more unacknowledged
      rw [targetDiagnostic?, unacknowledged, illegal] at isDiagnostic
      rw [targetDiagnostic?, before]
      exact isDiagnostic

/-- An end that dangled before was reported then, if not by the same edge then by an earlier one. -/
theorem areErrorsOf_referenceDiagnostics {current : Snapshot} :
    AreErrorsOf (referenceDiagnostics losses named' current) (referenceDiagnostics losses named current) := by
  intro d member isError
  rcases List.mem_append.mp member with tolerated | dangling
  · obtain ⟨e, _, isDiagnostic⟩ := List.mem_filterMap.mp tolerated
    rw [Diagnostic.isError, kind_of_toleratedDiagnostic? isDiagnostic] at isError
    cases isError
  · obtain ⟨dangles, first, rfl⟩ := List.mem_map.mp dangling
    obtain ⟨e, inside, isEnd⟩ := List.mem_flatMap.mp (mem_of_mem_firstBy first)
    have before : dangles ∈ current.edges.flatMap (danglingEnds losses named current) :=
      List.mem_flatMap.mpr ⟨e, inside, mem_danglingEnds_of_more more isEnd⟩
    obtain ⟨earlier, reported, same⟩ :=
      exists_mem_firstBy (fun d : Dangling => (d.source, d.target)) before
    exact ⟨_, List.mem_append_right _ (List.mem_map_of_mem reported), rfl,
      congrArg (fun ends : Path × NodeRef => some ends.1) same⟩

end

theorem mem_entryDiagnostics_of_isError {losses : Losses} {named named' : Path → Bool} {current : Snapshot}
    {e : ChangeLogEntry} {d : Diagnostic} (member : d ∈ entryDiagnostics losses named' current e)
    (isError : d.isError = true) : e.replacement ≠ none ∧ d ∈ entryDiagnostics losses named current e := by
  rcases List.mem_append.mp member with unused | replaced
  · split at unused
    · cases unused
    · rw [List.mem_singleton.mp unused] at isError
      cases isError
  · refine ⟨fun none => ?_, List.mem_append_right _ replaced⟩
    rw [none] at replaced
    cases replaced

variable {current : Snapshot} {previous : Option Snapshot} {options : ValidationOptions} {losses : Losses}

/-- Entries without replacements add no errors to what is found. -/
theorem areErrorsOf_findings {log log' : ChangeLog} (kept : ∀ e ∈ log.entries, e ∈ log'.entries)
    (added : ∀ e ∈ log'.entries, e ∈ log.entries ∨ e.replacement = none) :
    AreErrorsOf (findings current previous log' options losses) (findings current previous log options losses) := by
  have more : ∀ path, log.names current.version path = true → log'.names current.version path = true := by
    intro path names
    obtain ⟨e, member, applies, atPath⟩ := ChangeLog.names_iff.mp names
    exact ChangeLog.names_iff.mpr ⟨e, kept e member, applies, atPath⟩
  intro d member isError
  simp only [mem_findings] at member ⊢
  rcases member with logless | (loss | reference) | ⟨e, inside, applies, onEntry⟩ | ⟨e, _, _, rfl⟩
  · exact ⟨d, .inl logless, rfl, rfl⟩
  · obtain ⟨d', member', same⟩ := areErrorsOf_lossDiagnostics more d loss isError
    exact ⟨d', .inr (.inl (.inl member')), same⟩
  · obtain ⟨d', member', same⟩ := areErrorsOf_referenceDiagnostics more d reference isError
    exact ⟨d', .inr (.inl (.inr member')), same⟩
  · obtain ⟨replaced, before⟩ := mem_entryDiagnostics_of_isError onEntry isError
    have old : e ∈ log.entries := (added e inside).resolve_right replaced
    exact ⟨d, .inr (.inr (.inl ⟨e, old, applies, before⟩)), rfl, rfl⟩
  · cases isError

end Validation

/-- An entry more in the change log, if it names no replacement, leads to no error that was not there
without it, and keeps no version from being published. -/
theorem validate_acknowledging (current : Snapshot) (previous : Option Snapshot) (options : ValidationOptions)
    (log : ChangeLog) (e : ChangeLogEntry) (unreplaced : e.replacement = none) :
    (∀ d ∈ (validate current previous ⟨log.entries ++ [e]⟩ options).errors,
      ∃ d' ∈ (validate current previous log options).errors, d'.kind = d.kind ∧ d'.path = d.path) ∧
    ((validate current previous log options).passed = true →
      (validate current previous ⟨log.entries ++ [e]⟩ options).passed = true) := by
  have errors : ∀ d ∈ (validate current previous ⟨log.entries ++ [e]⟩ options).errors,
      ∃ d' ∈ (validate current previous log options).errors, d'.kind = d.kind ∧ d'.path = d.path := by
    intro d member
    obtain ⟨member, isError⟩ := List.mem_filter.mp member
    have kept : ∀ e' ∈ log.entries, e' ∈ log.entries ++ [e] := fun e' => List.mem_append_left _
    have added : ∀ e' ∈ log.entries ++ [e], e' ∈ log.entries ∨ e'.replacement = none := by
      intro e' inside
      refine (List.mem_append.mp inside).imp_right fun last => ?_
      rw [List.mem_singleton.mp last, unreplaced]
    obtain ⟨d', found, isError', same⟩ := (Validation.areErrorsOf_findings kept added).exists_isError
      (SortedSet.mem_toList_ofList.mp member) isError
    exact ⟨d', List.mem_filter.mpr ⟨SortedSet.mem_toList_ofList.mpr found, isError'⟩, same⟩
  refine ⟨errors, fun passed => ?_⟩
  rw [Report.passed, List.isEmpty_iff] at passed ⊢
  refine List.eq_nil_iff_forall_not_mem.mpr fun d member => ?_
  obtain ⟨d', before, _⟩ := errors d member
  rw [passed] at before
  cases before

/-- With the entry the retarget is in order, and a stale entry more leaves it so. -/
theorem validate_acknowledging_retargetEntry :
    let current := provingSnapshot 2 "D"
    let previous := provingSnapshot 1 "C"
    (retargetEntry 1).replacement = none ∧
      (validate current (some previous) ⟨[]⟩ {}).passed = false ∧
      (validate current (some previous) ⟨[retargetEntry 2]⟩ {}).passed = true ∧
      (validate current (some previous) ⟨[retargetEntry 2, retargetEntry 1]⟩ {}).passed = true := by
  have passed : (validate (provingSnapshot 2 "D") (some (provingSnapshot 1 "C")) ⟨[retargetEntry 2]⟩ {}).passed =
      true := by decide +kernel
  exact ⟨rfl, by decide +kernel, passed, (validate_acknowledging (provingSnapshot 2 "D")
    (some (provingSnapshot 1 "C")) {} ⟨[retargetEntry 2]⟩ (retargetEntry 1) rfl).2 passed⟩

end Deductions
