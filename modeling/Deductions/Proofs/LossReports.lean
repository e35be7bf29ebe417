import Deductions.Proofs.Publication

namespace Deductions

theorem length_filter_eq_one {α : Type} {p : α → Bool} {l : List α} (nodup : l.Nodup) {a : α}
    (member : a ∈ l) (holds : p a = true) (only : ∀ b ∈ l, p b = true → b = a) :
    (l.filter p).length = 1 := by
  have same : ∀ b, b ∈ l.filter p ↔ b ∈ [a] := by
    intro b
    rw [List.mem_filter, List.mem_singleton]
    constructor
    · rintro ⟨inside, holds'⟩
      exact only b inside holds'
    · rintro rfl
      exact ⟨member, holds⟩
  exact ((List.perm_ext_iff_of_nodup (nodup.filter p) (List.nodup_singleton a)).mpr same).length_eq

namespace Report

def IsAbout (kind : DiagnosticKind) (path : Path) (d : Diagnostic) : Prop :=
  d.kind = kind ∧ d.path = some path

instance (kind : DiagnosticKind) (path : Path) (d : Diagnostic) : Decidable (IsAbout kind path d) :=
  inferInstanceAs (Decidable (_ ∧ _))

/-- The diagnostics of one kind about one path. -/
def about (r : Report) (kind : DiagnosticKind) (path : Path) : List Diagnostic :=
  (SortedSet.toList r.diagnostics).filter fun d => IsAbout kind path d

variable {r : Report} {kind : DiagnosticKind} {path : Path}

theorem about_eq_nil (none : ∀ d ∈ SortedSet.toList r.diagnostics, ¬ IsAbout kind path d) :
    r.about kind path = [] := by
  refine List.filter_eq_nil_iff.mpr fun d member => ?_
  simpa using none d member

theorem length_about_eq_one {d : Diagnostic} (member : d ∈ SortedSet.toList r.diagnostics)
    (isAbout : IsAbout kind path d)
    (only : ∀ d' ∈ SortedSet.toList r.diagnostics, IsAbout kind path d' → d' = d) :
    (r.about kind path).length = 1 :=
  length_filter_eq_one (SortedMap.nodup_keys r.diagnostics) member (by simpa using isAbout)
    fun d' inside holds => only d' inside (by simpa using holds)

end Report

theorem source_of_retarget? {now : SortedMap Path (List Path)} {source : Path} {before : List Path}
    {r : Retarget} (isRetarget : retarget? now source before = some r) : r.source = source := by
  obtain ⟨_, _, isRetarget⟩ := Option.bind_eq_some_iff.mp isRetarget
  split at isRetarget <;> cases isRetarget
  rfl

namespace Losses

theorem nodup_retargets_between (before current : Snapshot) :
    ((between before current).retargets.map Retarget.source).Nodup := by
  have entries : before.expansionMap.entries.Pairwise fun a b => a.1 ≠ b.1 :=
    before.expansionMap.sorted.imp ne_of_compare_lt
  refine List.pairwise_map.mpr (entries.filterMap _ fun a b different r isRetarget r' isRetarget' => ?_)
  rw [source_of_retarget? isRetarget, source_of_retarget? isRetarget']
  exact different

theorem nodup_targets_between (before current : Snapshot) :
    ((between before current).targets.map LostTarget.path).Nodup := by
  have entries : before.expanders.entries.Pairwise fun a b => a.1 ≠ b.1 :=
    before.expanders.sorted.imp ne_of_compare_lt
  refine List.pairwise_map.mpr (entries.filterMap _ fun a b different t isLost t' isLost' => ?_)
  obtain ⟨_, same⟩ := Option.ite_none_right_eq_some.mp isLost
  obtain ⟨_, same'⟩ := Option.ite_none_right_eq_some.mp isLost'
  rw [← Option.some.inj same, ← Option.some.inj same']
  exact different

end Losses

theorem Snapshot.nodup_lossesSince (current : Snapshot) (previous : Option Snapshot) :
    ((current.lossesSince previous).retargets.map Retarget.source).Nodup ∧
      ((current.lossesSince previous).targets.map LostTarget.path).Nodup := by
  cases previous with
  | none => exact ⟨.nil, .nil⟩
  | some before =>
    exact ⟨Losses.nodup_retargets_between before current, Losses.nodup_targets_between before current⟩

section

variable (log : ChangeLog) (previous : Option Snapshot) (current : Snapshot)

/-- Whether everything that expanded the target before has been retargeted away from it, and the log
accounts for none of that. -/
def IsLeftToRetargets (target : Path) : Prop :=
  ∀ before ∈ previous, ∀ source, before.Expands source target →
    Removes previous current source target ∧ ¬ IsAcknowledgedRetarget log previous current source

/-- Whether a report says once of every loss what it has to say: of one that the log accounts for, that
this is so; of one that it does not account for, that it is lost or that all its sources were
retargeted. -/
structure AccountsForLosses (r : Report) : Prop where
  logged : ∀ target, IsLost previous current target → IsAcknowledgedLoss log previous current target →
    (r.about .loggedGhost target).length = 1 ∧ r.about .unloggedDisappearance target = []
  unlogged : ∀ target, IsLost previous current target →
    ¬ IsAcknowledgedLoss log previous current target → ¬ IsLeftToRetargets log previous current target →
    (r.about .unloggedDisappearance target).length = 1
  left : ∀ target, IsLost previous current target → ¬ IsAcknowledgedLoss log previous current target →
    IsLeftToRetargets log previous current target → r.about .unloggedDisappearance target = []
  illegal : ∀ source, IsRetargeted previous current source →
    ¬ IsAcknowledgedRetarget log previous current source → (r.about .illegalRetarget source).length = 1
  onlyIllegal : ∀ d ∈ SortedSet.toList r.diagnostics, d.kind = .illegalRetarget →
    ∃ source, d.path = some source ∧ IsRetargeted previous current source ∧
      ¬ IsAcknowledgedRetarget log previous current source
  onlyUnlogged : ∀ d ∈ SortedSet.toList r.diagnostics, d.kind = .unloggedDisappearance →
    ∃ target, d.path = some target ∧ IsLost previous current target ∧
      ¬ IsAcknowledgedLoss log previous current target

end

section

variable {log : ChangeLog} {previous : Option Snapshot} {current : Snapshot} {losses : Losses}

theorem Losses.Describe.isIllegal_iff (describe : losses.Describe previous current)
    {source target : Path} : losses.isIllegal (log.names current.version) target source = true ↔
      Removes previous current source target ∧
        ¬ IsAcknowledgedRetarget log previous current source := by
  rw [Losses.isIllegal]
  split
  next r found =>
    have member : r ∈ losses.retargets := List.mem_of_find?_eq_some found
    have same : r.source = source :=
      eq_of_beq (List.find?_some (p := fun r : Retarget => r.source == source) found)
    have acknowledged : _ ↔ IsAcknowledgedRetarget log _ _ _ := describe.isAcknowledged_iff member
    have removed := describe.removed r member target
    rw [same] at acknowledged removed
    rw [Bool.and_eq_true, Bool.not_eq_true', Bool.eq_false_iff, Ne, acknowledged,
      List.contains_iff_mem, removed, and_comm]
  next none =>
    refine iff_of_false (fun same => nomatch same) ?_
    rintro ⟨removes, _⟩
    obtain ⟨r, member, same⟩ := describe.retargets source (isRetargeted_iff.mpr ⟨target, removes⟩)
    exact List.find?_eq_none.mp none r member (beq_iff_eq.mpr same)

theorem Losses.Describe.isLeft_iff (describe : losses.Describe previous current) {t : LostTarget}
    (member : t ∈ losses.targets) :
    t.expanders.all (losses.isIllegal (log.names current.version) t.path) = true ↔
      IsLeftToRetargets log previous current t.path := by
  simp only [List.all_eq_true, describe.isIllegal_iff, describe.expanders t member]
  constructor
  · intro all before isPrevious source expands
    exact all source ⟨before, isPrevious, expands⟩
  · rintro isLeft source ⟨before, isPrevious, expands⟩
    exact isLeft before isPrevious source expands

namespace Validation

/-- The kinds of diagnostics on losses. -/
def IsOnLoss (kind : DiagnosticKind) : Prop :=
  kind = .illegalRetarget ∨ kind = .unloggedDisappearance ∨ kind = .loggedGhost

instance (kind : DiagnosticKind) : Decidable (IsOnLoss kind) :=
  inferInstanceAs (Decidable (_ ∨ _ ∨ _))

/-- The kinds of diagnostics on losses and on references. -/
def IsOnReference (kind : DiagnosticKind) : Prop := IsOnLoss kind ∨ kind = .danglingReference

instance (kind : DiagnosticKind) : Decidable (IsOnReference kind) := inferInstanceAs (Decidable (_ ∨ _))

theorem not_isOnReference_of_kind (kind : DiagnosticKind) (other : ¬ IsOnReference kind) {l : List Diagnostic}
    (same : ∀ d ∈ l, d.kind = kind) : ∀ d ∈ l, ¬ IsOnReference d.kind := by
  intro d member
  rw [same d member]
  exact other

theorem kind_multipleExpansions : ∀ d ∈ multipleExpansions current, d.kind = .multipleExpansion := by
  intro d member
  rcases List.mem_append.mp member with source | target
  · obtain ⟨_, _, rfl⟩ := List.mem_map.mp source
    rfl
  · obtain ⟨_, _, rfl⟩ := List.mem_map.mp target
    rfl

theorem kind_entryDiagnostics {named : Path → Bool} {e : ChangeLogEntry} :
    ∀ d ∈ entryDiagnostics losses named current e, d.kind = .unusedEntry ∨ d.kind = .invalidReplacement := by
  intro d member
  rcases List.mem_append.mp member with unused | replaced
  · split at unused
    · cases unused
    · rw [List.mem_singleton.mp unused]
      exact .inl rfl
  · split at replaced
    · split at replaced
      · cases replaced
      · rw [List.mem_singleton.mp replaced]
        exact .inr rfl
    · cases replaced

theorem kind_versionDiagnostics {options : ValidationOptions} {breaking : Bool} :
    ∀ d ∈ versionDiagnostics options current.version breaking previous,
      d.kind = .versionNotIncreased ∨ d.kind = .disallowedBreakingChange := by
  intro d member
  cases previous with
  | none => cases member
  | some before =>
    dsimp only [versionDiagnostics, policyDiagnostics] at member
    repeat' split at member
    · rw [List.mem_singleton.mp member]
      exact .inl rfl
    · rw [List.mem_singleton.mp member]
      exact .inr rfl
    · cases member

theorem not_isOnReference_entryDiagnostics {named : Path → Bool} {e : ChangeLogEntry} :
    ∀ d ∈ entryDiagnostics losses named current e, ¬ IsOnReference d.kind := by
  intro d member
  rcases kind_entryDiagnostics d member with kind | kind
  all_goals
    rw [kind]
    decide

theorem not_isOnReference_versionDiagnostics {options : ValidationOptions} {breaking : Bool} :
    ∀ d ∈ versionDiagnostics options current.version breaking previous, ¬ IsOnReference d.kind := by
  intro d member
  rcases kind_versionDiagnostics d member with kind | kind
  all_goals
    rw [kind]
    decide

/-- What is found about losses and references is found by the checks of these. -/
theorem mem_findings_iff {options : ValidationOptions} {d : Diagnostic} (onReference : IsOnReference d.kind) :
    d ∈ findings current previous log options losses ↔
      d ∈ lossDiagnostics losses (log.names current.version) ∨
        d ∈ referenceDiagnostics losses (log.names current.version) current := by
  constructor
  · intro member
    rw [findings_eq] at member
    simp only [List.mem_append] at member
    rcases member with
      (((((((integrity | loss) | reference) | multiple) | unused) | stale) | entry) | version) |
        undelivered
    · exact absurd onReference (not_isOnReference_of_kind _ (by decide) kind_integrity d integrity)
    · exact .inl loss
    · exact .inr reference
    · exact absurd onReference (not_isOnReference_of_kind _ (by decide) kind_multipleExpansions d multiple)
    · exact absurd onReference (not_isOnReference_of_kind _ (by decide) kind_unused d unused)
    · exact absurd onReference (not_isOnReference_of_kind _ (by decide) kind_stale d stale)
    · obtain ⟨e, _, inside⟩ := List.mem_flatMap.mp entry
      exact absurd onReference (not_isOnReference_entryDiagnostics d inside)
    · exact absurd onReference (not_isOnReference_versionDiagnostics d version)
    · exact absurd onReference (not_isOnReference_of_kind _ (by decide) kind_undelivered d undelivered)
  · intro either
    rw [findings_eq]
    simp only [List.mem_append]
    rcases either with loss | reference
    · simp [loss]
    · simp [reference]

theorem kind_of_toleratedDiagnostic? {e : Edge} {d : Diagnostic}
    (isDiagnostic : toleratedDiagnostic? losses e = some d) : d.kind = .loggedGhost := by
  unfold toleratedDiagnostic? at isDiagnostic
  repeat' split at isDiagnostic
  all_goals cases isDiagnostic
  rfl

/-- References give notice of targets that are not lost, and report none as lost. -/
theorem path_of_mem_referenceDiagnostics (describe : losses.Describe previous current)
    {named : Path → Bool} {d : Diagnostic} (member : d ∈ referenceDiagnostics losses named current)
    (onLoss : IsOnLoss d.kind) :
    d.kind = .loggedGhost ∧ ∃ target, d.path = some target ∧ ¬ IsLost previous current target := by
  rcases List.mem_append.mp member with tolerated | dangling
  · obtain ⟨e, _, isDiagnostic⟩ := List.mem_filterMap.mp tolerated
    cases e with
    | ghost source target role =>
      rw [toleratedDiagnostic?] at isDiagnostic
      split at isDiagnostic
      · cases isDiagnostic
      next notLost =>
        cases isDiagnostic
        exact ⟨rfl, target.path, rfl, fun lost => notLost (describe.isSome_target?.mpr lost)⟩
    | _ => cases isDiagnostic
  · obtain ⟨_, _, rfl⟩ := List.mem_map.mp dangling
    have notOnLoss : ¬ IsOnLoss .danglingReference := by decide
    exact absurd onLoss notOnLoss

theorem targetDiagnostic?_cases {named : Path → Bool} {t : LostTarget} {d : Diagnostic}
    (isDiagnostic : targetDiagnostic? losses named t = some d) : d.path = some t.path ∧
      (d.kind = .loggedGhost ∧ losses.acknowledges named t.path = true ∨
        d.kind = .unloggedDisappearance ∧ losses.acknowledges named t.path = false ∧
          t.expanders.all (losses.isIllegal named t.path) = false) := by
  rw [targetDiagnostic?] at isDiagnostic
  split at isDiagnostic
  next acknowledged =>
    cases isDiagnostic
    exact ⟨rfl, .inl ⟨rfl, acknowledged⟩⟩
  next unacknowledged =>
    split at isDiagnostic
    · cases isDiagnostic
    next reported =>
      cases isDiagnostic
      exact ⟨rfl, .inr ⟨rfl, by simpa using unacknowledged, by simpa using reported⟩⟩

theorem isOnReference_lossDiagnostics {named : Path → Bool} :
    ∀ d ∈ lossDiagnostics losses named, IsOnReference d.kind := by
  intro d member
  rcases List.mem_append.mp member with retargets | targets
  · obtain ⟨r, _, rfl⟩ := List.mem_map.mp retargets
    exact .inl (.inl rfl)
  · obtain ⟨t, _, isDiagnostic⟩ := List.mem_filterMap.mp targets
    rcases (targetDiagnostic?_cases isDiagnostic).2 with ⟨logged, _⟩ | ⟨unlogged, _⟩
    · exact .inl (.inr (.inr logged))
    · exact .inl (.inr (.inl unlogged))

theorem isOnReference_referenceDiagnostics {named : Path → Bool} :
    ∀ d ∈ referenceDiagnostics losses named current, IsOnReference d.kind := by
  intro d member
  rcases List.mem_append.mp member with tolerated | dangling
  · obtain ⟨e, _, isDiagnostic⟩ := List.mem_filterMap.mp tolerated
    exact .inl (.inr (.inr (kind_of_toleratedDiagnostic? isDiagnostic)))
  · obtain ⟨_, _, rfl⟩ := List.mem_map.mp dangling
    exact .inr rfl

theorem exists_logged {named : Path → Bool} {t : LostTarget}
    (acknowledged : losses.acknowledges named t.path = true) :
    ∃ d, targetDiagnostic? losses named t = some d ∧ d.kind = .loggedGhost := by
  rw [targetDiagnostic?, if_pos acknowledged]
  exact ⟨_, rfl, rfl⟩

theorem exists_unlogged {named : Path → Bool} {t : LostTarget}
    (unacknowledged : ¬ losses.acknowledges named t.path = true)
    (reported : ¬ t.expanders.all (losses.isIllegal named t.path) = true) :
    ∃ d, targetDiagnostic? losses named t = some d ∧ d.kind = .unloggedDisappearance := by
  rw [targetDiagnostic?, if_neg unacknowledged, if_neg reported]
  exact ⟨_, rfl, rfl⟩

end Validation

open Validation

variable {options : ValidationOptions}

/-- Where the diagnostics of a report on losses are from. -/
inductive IsLossReport (log : ChangeLog) (losses : Losses) (previous : Option Snapshot)
    (current : Snapshot) : Diagnostic → Prop
  | retarget {r : Retarget} (member : r ∈ losses.retargets)
      (illegal : r.isAcknowledged (log.names current.version) = false) :
      IsLossReport log losses previous current (retargetDiagnostic r)
  | target {t : LostTarget} {d : Diagnostic} (member : t ∈ losses.targets)
      (isDiagnostic : targetDiagnostic? losses (log.names current.version) t = some d) :
      IsLossReport log losses previous current d
  | reference {target : Path} {d : Diagnostic} (logged : d.kind = .loggedGhost)
      (atTarget : d.path = some target) (notLost : ¬ IsLost previous current target) :
      IsLossReport log losses previous current d

theorem isLossReport_of_mem {d : Diagnostic}
    (member : d ∈ SortedSet.toList (validate current previous log options).diagnostics)
    (onLoss : IsOnLoss d.kind) :
    IsLossReport log (current.lossesSince previous) previous current d := by
  have describe := current.lossesSince_describe previous
  have found : d ∈ findings current previous log options (current.lossesSince previous) :=
    SortedSet.mem_toList_ofList.mp member
  rcases (mem_findings_iff (.inl onLoss)).mp found with loss | reference
  · rcases List.mem_append.mp loss with retargets | targets
    · obtain ⟨r, inside, rfl⟩ := List.mem_map.mp retargets
      obtain ⟨inside, illegal⟩ := List.mem_filter.mp inside
      exact .retarget inside (by simpa using illegal)
    · obtain ⟨t, inside, isDiagnostic⟩ := List.mem_filterMap.mp targets
      exact .target inside isDiagnostic
  · obtain ⟨logged, target, atTarget, notLost⟩ :=
      path_of_mem_referenceDiagnostics describe reference onLoss
    exact .reference logged atTarget notLost

theorem mem_of_lossDiagnostics {d : Diagnostic}
    (loss : d ∈ lossDiagnostics (current.lossesSince previous) (log.names current.version)) :
    d ∈ SortedSet.toList (validate current previous log options).diagnostics := by
  refine SortedSet.mem_toList_ofList.mpr ?_
  rw [findings_eq]
  simp [loss]

/-- The losses of a version are told apart by their paths. -/
theorem Snapshot.eq_of_path {t t' : LostTarget} (member : t ∈ (current.lossesSince previous).targets)
    (member' : t' ∈ (current.lossesSince previous).targets) (same : t.path = t'.path) : t = t' :=
  List.inj_on_of_nodup_map (current.nodup_lossesSince previous).2 member member' same

theorem Snapshot.eq_of_source {r r' : Retarget}
    (member : r ∈ (current.lossesSince previous).retargets)
    (member' : r' ∈ (current.lossesSince previous).retargets) (same : r.source = r'.source) : r = r' :=
  List.inj_on_of_nodup_map (current.nodup_lossesSince previous).1 member member' same

theorem unlogged_of_mem {d : Diagnostic}
    (member : d ∈ SortedSet.toList (validate current previous log options).diagnostics)
    (unlogged : d.kind = .unloggedDisappearance) : ∃ target, d.path = some target ∧
      IsLost previous current target ∧ ¬ IsAcknowledgedLoss log previous current target ∧
        ¬ IsLeftToRetargets log previous current target := by
  have describe := current.lossesSince_describe previous
  cases isLossReport_of_mem member (.inr (.inl unlogged)) with
  | retarget => cases unlogged
  | @target t _ inside isDiagnostic =>
    obtain ⟨atTarget, kinds⟩ := targetDiagnostic?_cases isDiagnostic
    rcases kinds with ⟨logged, _⟩ | ⟨_, unacknowledged, reported⟩
    · cases unlogged.symm.trans logged
    · refine ⟨t.path, atTarget, describe.lost t inside, ?_, ?_⟩
      · rw [← describe.acknowledges_iff, unacknowledged]
        exact Bool.false_ne_true
      · rw [← describe.isLeft_iff inside, reported]
        exact Bool.false_ne_true
  | reference logged => cases unlogged.symm.trans logged

theorem illegal_of_mem {d : Diagnostic}
    (member : d ∈ SortedSet.toList (validate current previous log options).diagnostics)
    (illegal : d.kind = .illegalRetarget) : ∃ r ∈ (current.lossesSince previous).retargets,
      d = retargetDiagnostic r ∧ IsRetargeted previous current r.source ∧
        ¬ IsAcknowledgedRetarget log previous current r.source := by
  have describe := current.lossesSince_describe previous
  cases isLossReport_of_mem member (.inl illegal) with
  | @retarget r inside unacknowledged =>
    refine ⟨r, inside, rfl, describe.isRetargeted inside, ?_⟩
    rw [← describe.isAcknowledged_iff inside, unacknowledged]
    exact Bool.false_ne_true
  | target _ isDiagnostic =>
    rcases (targetDiagnostic?_cases isDiagnostic).2 with ⟨logged, _⟩ | ⟨unlogged, _⟩
    · cases illegal.symm.trans logged
    · cases illegal.symm.trans unlogged
  | reference logged => cases illegal.symm.trans logged

/-- A lost target that has a diagnostic of its own has no other of that kind. -/
theorem length_about_of_target {t : LostTarget} {kind : DiagnosticKind}
    (member : t ∈ (current.lossesSince previous).targets) (reported : ∃ d,
      targetDiagnostic? (current.lossesSince previous) (log.names current.version) t = some d ∧
        d.kind = kind) : ((validate current previous log options).about kind t.path).length = 1 := by
  obtain ⟨d, isDiagnostic, rfl⟩ := reported
  have describe := current.lossesSince_describe previous
  obtain ⟨atTarget, kinds⟩ := targetDiagnostic?_cases isDiagnostic
  have onLoss : IsOnLoss d.kind := by
    rcases kinds with ⟨logged, _⟩ | ⟨unlogged, _⟩
    · exact .inr (.inr logged)
    · exact .inr (.inl unlogged)
  refine Report.length_about_eq_one (mem_of_lossDiagnostics (List.mem_append_right _
    (List.mem_filterMap.mpr ⟨t, member, isDiagnostic⟩))) ⟨rfl, atTarget⟩ ?_
  rintro d' inside ⟨sameKind, samePath⟩
  cases isLossReport_of_mem inside (sameKind ▸ onLoss) with
  | retarget =>
    have other : d.kind = .illegalRetarget := sameKind.symm
    rcases kinds with ⟨logged, _⟩ | ⟨unlogged, _⟩
    · cases other.symm.trans logged
    · cases other.symm.trans unlogged
  | target member' isDiagnostic' =>
    have path := (targetDiagnostic?_cases isDiagnostic').1.symm.trans samePath
    obtain rfl := Snapshot.eq_of_path member' member (Option.some.inj path)
    exact Option.some.inj (isDiagnostic'.symm.trans isDiagnostic)
  | reference _ atTarget' notLost =>
    have path := Option.some.inj (atTarget'.symm.trans samePath)
    exact absurd (path ▸ describe.lost t member) notLost

/-- A retarget that the log does not account for is reported once. -/
theorem length_about_of_retarget {r : Retarget} (member : r ∈ (current.lossesSince previous).retargets)
    (illegal : r.isAcknowledged (log.names current.version) = false) :
    ((validate current previous log options).about .illegalRetarget r.source).length = 1 := by
  refine Report.length_about_eq_one (d := retargetDiagnostic r) (mem_of_lossDiagnostics
    (List.mem_append_left _ (List.mem_map_of_mem (List.mem_filter.mpr ⟨member, ?_⟩)))) ⟨rfl, rfl⟩ ?_
  · rw [illegal]
    rfl
  · rintro d inside ⟨kind, atSource⟩
    obtain ⟨r', member', rfl, _⟩ := illegal_of_mem inside kind
    rw [Snapshot.eq_of_source member' member (Option.some.inj atSource)]

end

/-- Validation accounts for every loss once. -/
theorem validate_accountsForLosses (current : Snapshot) (previous : Option Snapshot) (log : ChangeLog)
    (options : ValidationOptions) :
    AccountsForLosses log previous current (validate current previous log options) := by
  have describe := current.lossesSince_describe previous
  constructor
  case logged =>
    intro target lost acknowledged
    obtain ⟨t, member, rfl⟩ := describe.targets target lost
    have reported := Validation.exists_logged (describe.acknowledges_iff.mpr acknowledged)
    refine ⟨length_about_of_target member reported, Report.about_eq_nil ?_⟩
    rintro d inside ⟨kind, atTarget⟩
    obtain ⟨target, atTarget', _, unacknowledged, _⟩ := unlogged_of_mem inside kind
    obtain rfl := Option.some.inj (atTarget'.symm.trans atTarget)
    exact unacknowledged acknowledged
  case unlogged =>
    intro target lost unacknowledged notLeft
    obtain ⟨t, member, rfl⟩ := describe.targets target lost
    have isUnlogged := mt describe.acknowledges_iff.mp unacknowledged
    have isReported := mt (describe.isLeft_iff member).mp notLeft
    exact length_about_of_target member (Validation.exists_unlogged isUnlogged isReported)
  case left =>
    intro target _ _ isLeft
    refine Report.about_eq_nil ?_
    rintro d inside ⟨kind, atTarget⟩
    obtain ⟨target', atTarget', _, _, notLeft⟩ := unlogged_of_mem inside kind
    obtain rfl := Option.some.inj (atTarget'.symm.trans atTarget)
    exact notLeft isLeft
  case illegal =>
    intro source retargeted unacknowledged
    obtain ⟨r, member, rfl⟩ := describe.retargets source retargeted
    have isIllegal := mt (describe.isAcknowledged_iff member).mp unacknowledged
    exact length_about_of_retarget member (by simpa using isIllegal)
  case onlyIllegal =>
    intro d inside kind
    obtain ⟨r, _, rfl, retargeted, unacknowledged⟩ := illegal_of_mem inside kind
    exact ⟨r.source, rfl, retargeted, unacknowledged⟩
  case onlyUnlogged =>
    intro d inside kind
    obtain ⟨target, atTarget, lost, unacknowledged, _⟩ := unlogged_of_mem inside kind
    exact ⟨target, atTarget, lost, unacknowledged⟩

end Deductions
