import Deductions.Validation
import Deductions.Proofs.SortedMap

namespace Deductions

namespace Snapshot

/-- Whether an expansion leaves `source`. -/
def HasExpansion (s : Snapshot) (source : Path) : Prop :=
  ∃ e ∈ s.expansions, e.source.path = source

/-- Whether an expansion leads from `source` to `target`. -/
def Expands (s : Snapshot) (source target : Path) : Prop :=
  ∃ e ∈ s.expansions, e.source.path = source ∧ ∃ t ∈ e.targets, t.path = target

theorem Expands.hasExpansion {s : Snapshot} {source target : Path} (expands : s.Expands source target) :
    s.HasExpansion source := by
  obtain ⟨e, member, same, _⟩ := expands
  exact ⟨e, member, same⟩

def addTargets (m : SortedMap Path (List Path)) (e : Edge) : SortedMap Path (List Path) :=
  m.insert e.source.path ((m.find? e.source.path).getD [] ++ e.targets.map NodeRef.path)

theorem isSome_foldl_addTargets {edges : List Edge} {m : SortedMap Path (List Path)} {source : Path} :
    ((edges.foldl addTargets m).find? source).isSome ↔
      (m.find? source).isSome ∨ ∃ e ∈ edges, e.source.path = source := by
  induction edges generalizing m with
  | nil => simp
  | cons e edges ih =>
    rw [List.foldl_cons, ih, addTargets]
    by_cases same : e.source.path = source
    · subst same
      simp
    · rw [SortedMap.find?_insert_of_ne _ _ (Ne.symm same)]
      simp [same]

theorem mem_foldl_addTargets {edges : List Edge} {m : SortedMap Path (List Path)}
    {source target : Path} :
    target ∈ ((edges.foldl addTargets m).find? source).getD [] ↔
      target ∈ (m.find? source).getD [] ∨
        ∃ e ∈ edges, e.source.path = source ∧ ∃ t ∈ e.targets, t.path = target := by
  induction edges generalizing m with
  | nil => simp
  | cons e edges ih =>
    rw [List.foldl_cons, ih, addTargets]
    by_cases same : e.source.path = source
    · subst same
      simp [or_assoc]
    · rw [SortedMap.find?_insert_of_ne _ _ (Ne.symm same)]
      simp [same]

theorem isSome_expansionMap {s : Snapshot} {source : Path} :
    (s.expansionMap.find? source).isSome ↔ s.HasExpansion source := by
  refine isSome_foldl_addTargets.trans ?_
  simp [HasExpansion]

theorem mem_expansionMap {s : Snapshot} {source : Path} {targets : List Path}
    (found : s.expansionMap.find? source = some targets) (target : Path) :
    target ∈ targets ↔ s.Expands source target := by
  have member : target ∈ (s.expansionMap.find? source).getD [] ↔ _ := mem_foldl_addTargets
  rw [found] at member
  refine member.trans ?_
  simp [Expands]

/-- The source and the target of every expansion, as often as there are such expansions. -/
def expansionPairs (s : Snapshot) : List (Path × Path) :=
  s.expansions.flatMap fun e => e.targets.map fun t => (e.source.path, t.path)

theorem mem_expansionPairs {s : Snapshot} {source target : Path} :
    (source, target) ∈ s.expansionPairs ↔ s.Expands source target := by
  simp only [expansionPairs, Expands, List.mem_flatMap, List.mem_map, Prod.mk.injEq]
  constructor
  · rintro ⟨e, member, t, atEnd, same, rfl⟩
    exact ⟨e, member, same, t, atEnd, rfl⟩
  · rintro ⟨e, member, same, t, atEnd, rfl⟩
    exact ⟨e, member, t, atEnd, same, rfl⟩

def addExpander (m : SortedMap Path (SortedSet Path)) (pair : Path × Path) :
    SortedMap Path (SortedSet Path) :=
  m.insert pair.2 (SortedSet.insert ((m.find? pair.2).getD SortedMap.empty) pair.1)

theorem expanders_eq (s : Snapshot) :
    s.expanders = s.expansionPairs.foldl addExpander SortedMap.empty := by
  simp only [expanders, expansionPairs, List.foldl_flatMap, List.foldl_map]
  rfl

theorem isSome_foldl_addExpander {pairs : List (Path × Path)} {m : SortedMap Path (SortedSet Path)}
    {target : Path} :
    ((pairs.foldl addExpander m).find? target).isSome ↔
      (m.find? target).isSome ∨ ∃ source, (source, target) ∈ pairs := by
  induction pairs generalizing m with
  | nil => simp
  | cons pair pairs ih =>
    rw [List.foldl_cons, ih, addExpander]
    by_cases same : pair.2 = target
    · subst same
      simp [Prod.ext_iff]
    · rw [SortedMap.find?_insert_of_ne _ _ (Ne.symm same)]
      simp [Prod.ext_iff, Ne.symm same]

theorem mem_foldl_addExpander {pairs : List (Path × Path)} {m : SortedMap Path (SortedSet Path)}
    {source target : Path} :
    source ∈ (((pairs.foldl addExpander m).find? target).getD SortedMap.empty).toList ↔
      source ∈ ((m.find? target).getD SortedMap.empty).toList ∨ (source, target) ∈ pairs := by
  induction pairs generalizing m with
  | nil => simp
  | cons pair pairs ih =>
    rw [List.foldl_cons, ih, addExpander]
    by_cases same : pair.2 = target
    · subst same
      simp [SortedSet.mem_toList_insert, Prod.ext_iff, or_assoc, or_left_comm]
    · rw [SortedMap.find?_insert_of_ne _ _ (Ne.symm same)]
      simp [Prod.ext_iff, Ne.symm same]

theorem isSome_expanders {s : Snapshot} {target : Path} :
    (s.expanders.find? target).isSome ↔ ∃ source, s.Expands source target := by
  rw [expanders_eq, isSome_foldl_addExpander]
  simp [mem_expansionPairs]

theorem mem_expanders {s : Snapshot} {target : Path} {sources : SortedSet Path}
    (found : s.expanders.find? target = some sources) (source : Path) :
    source ∈ sources.toList ↔ s.Expands source target := by
  have member : source ∈ ((s.expanders.find? target).getD SortedMap.empty).toList ↔ _ :=
    (expanders_eq s).symm ▸ mem_foldl_addExpander
  rw [found, mem_expansionPairs] at member
  exact member.trans (or_iff_right List.not_mem_nil)

end Snapshot

section

variable (previous : Option Snapshot) (current : Snapshot)

/-- Whether `source` expanded `target` before and now expands, but no longer this one. -/
def Removes (source target : Path) : Prop :=
  ∃ before ∈ previous, before.Expands source target ∧ current.HasExpansion source ∧
    ¬ current.Expands source target

/-- Whether an expansion leaves `source` in both versions and no longer reaches all it reached. -/
def IsRetargeted (source : Path) : Prop :=
  ∃ before ∈ previous, before.HasExpansion source ∧ current.HasExpansion source ∧
    ∃ target, before.Expands source target ∧ ¬ current.Expands source target

/-- Whether `target` was expanded before and either was a node of the library and is none now, or is
no longer expanded by a source of before. -/
def IsLost (target : Path) : Prop :=
  ∃ before ∈ previous, (∃ source, before.Expands source target) ∧
    (before.owns target = true ∧ current.contains target = false ∨
      ∃ source, Removes previous current source target)

end

theorem isRetargeted_iff {previous : Option Snapshot} {current : Snapshot} {source : Path} :
    IsRetargeted previous current source ↔ ∃ target, Removes previous current source target := by
  constructor
  · rintro ⟨before, isPrevious, _, now, target, expanded, noLonger⟩
    exact ⟨target, before, isPrevious, expanded, now, noLonger⟩
  · rintro ⟨target, before, isPrevious, expanded, now, noLonger⟩
    exact ⟨before, isPrevious, expanded.hasExpansion, now, target, expanded, noLonger⟩

/-- Whether the losses are those between the two versions. -/
structure Losses.Describe (losses : Losses) (previous : Option Snapshot) (current : Snapshot) :
    Prop where
  removed : ∀ r ∈ losses.retargets, ∀ target,
    target ∈ r.removed ↔ Removes previous current r.source target
  nonempty : ∀ r ∈ losses.retargets, r.removed ≠ []
  retargets : ∀ source, IsRetargeted previous current source →
    ∃ r ∈ losses.retargets, r.source = source
  lost : ∀ t ∈ losses.targets, IsLost previous current t.path
  expanders : ∀ t ∈ losses.targets, ∀ source,
    source ∈ t.expanders ↔ ∃ before ∈ previous, before.Expands source t.path
  targets : ∀ target, IsLost previous current target → ∃ t ∈ losses.targets, t.path = target

theorem retarget?_eq_some {before current : Snapshot} {source : Path} {targets : List Path}
    (found : before.expansionMap.find? source = some targets) {r : Retarget} :
    retarget? current.expansionMap source targets = some r →
      r.source = source ∧ r.removed ≠ [] ∧
        ∀ target, target ∈ r.removed ↔ Removes (some before) current source target := by
  intro isRetarget
  obtain ⟨now, foundNow, isRetarget⟩ := Option.bind_eq_some_iff.mp isRetarget
  have member : ∀ target, target ∈
      SortedSet.toList (SortedSet.ofList (targets.filter fun target => !now.contains target)) ↔
        Removes (some before) current source target := by
    intro target
    have hasExpansion := Snapshot.isSome_expansionMap.mp (Option.isSome_of_eq_some foundNow)
    rw [SortedSet.mem_toList_ofList, List.mem_filter, Snapshot.mem_expansionMap found]
    simp [Removes, Snapshot.mem_expansionMap foundNow, hasExpansion]
  split at isRetarget
  · cases isRetarget
  next some_ =>
    cases isRetarget
    exact ⟨rfl, some_, member⟩

theorem retarget?_isSome {before current : Snapshot} {source target : Path} {targets : List Path}
    (found : before.expansionMap.find? source = some targets)
    (removes : Removes (some before) current source target) :
    ∃ r, retarget? current.expansionMap source targets = some r := by
  obtain ⟨_, isBefore, expanded, hasExpansion, noLonger⟩ := removes
  cases isBefore
  obtain ⟨now, foundNow⟩ := Option.isSome_iff_exists.mp (Snapshot.isSome_expansionMap.mpr hasExpansion)
  have member : target ∈ SortedSet.toList
      (SortedSet.ofList (targets.filter fun target => !now.contains target)) := by
    rw [SortedSet.mem_toList_ofList, List.mem_filter, Snapshot.mem_expansionMap found]
    simp [Snapshot.mem_expansionMap foundNow, expanded, noLonger]
  refine Option.isSome_iff_exists.mp ?_
  rw [retarget?, foundNow]
  dsimp only [bind, Option.bind]
  split
  next none => rw [none] at member; cases member
  · rfl

theorem Losses.mem_retargets_between {before current : Snapshot} {r : Retarget} :
    r ∈ (Losses.between before current).retargets ↔
      ∃ source targets, before.expansionMap.find? source = some targets ∧
        retarget? current.expansionMap source targets = some r := by
  simp only [Losses.between, List.mem_filterMap, Prod.exists, SortedMap.find?_eq_some_iff]

theorem Losses.any_retargets_between {before current : Snapshot} {target : Path} :
    ((Losses.between before current).retargets.any fun r => r.removed.contains target) = true ↔
      ∃ source, Removes (some before) current source target := by
  simp only [List.any_eq_true, List.contains_iff_mem, Losses.mem_retargets_between]
  constructor
  · rintro ⟨r, ⟨source, targets, found, isRetarget⟩, member⟩
    exact ⟨source, ((retarget?_eq_some found isRetarget).2.2 target).mp member⟩
  · rintro ⟨source, removes⟩
    obtain ⟨_, isBefore, expanded, _⟩ := id removes
    cases isBefore
    obtain ⟨targets, found⟩ := Option.isSome_iff_exists.mp
      (Snapshot.isSome_expansionMap.mpr expanded.hasExpansion)
    obtain ⟨r, isRetarget⟩ := retarget?_isSome found removes
    exact ⟨r, ⟨source, targets, found, isRetarget⟩,
      ((retarget?_eq_some found isRetarget).2.2 target).mpr removes⟩

theorem Losses.mem_targets_between {before current : Snapshot} {t : LostTarget} :
    t ∈ (Losses.between before current).targets ↔
      ∃ sources, before.expanders.find? t.path = some sources ∧ t.expanders = sources.toList ∧
        t.vanished = (before.owns t.path && !current.contains t.path) ∧
        (t.vanished = true ∨ ∃ source, Removes (some before) current source t.path) := by
  simp only [← Losses.any_retargets_between]
  simp only [Losses.between, List.mem_filterMap, Prod.exists, SortedMap.find?_eq_some_iff,
    Option.ite_none_right_eq_some, Bool.or_eq_true, Option.some.injEq]
  constructor
  · rintro ⟨target, sources, member, isLost, rfl⟩
    exact ⟨sources, member, rfl, rfl, isLost⟩
  · rintro ⟨sources, member, expanders, vanished, isLost⟩
    refine ⟨t.path, sources, member, ?_, ?_⟩
    · rwa [← vanished]
    · rw [← vanished, ← expanders]

theorem Losses.describe_between (before current : Snapshot) :
    (Losses.between before current).Describe (some before) current where
  removed := by
    intro r member
    obtain ⟨source, targets, found, isRetarget⟩ := Losses.mem_retargets_between.mp member
    obtain ⟨rfl, _, removed⟩ := retarget?_eq_some found isRetarget
    exact removed
  nonempty := by
    intro r member
    obtain ⟨source, targets, found, isRetarget⟩ := Losses.mem_retargets_between.mp member
    exact (retarget?_eq_some found isRetarget).2.1
  retargets := by
    intro source retargeted
    obtain ⟨target, removes⟩ := isRetargeted_iff.mp retargeted
    obtain ⟨_, isBefore, expanded, _⟩ := id removes
    cases isBefore
    obtain ⟨targets, found⟩ := Option.isSome_iff_exists.mp
      (Snapshot.isSome_expansionMap.mpr expanded.hasExpansion)
    obtain ⟨r, isRetarget⟩ := retarget?_isSome found removes
    exact ⟨r, Losses.mem_retargets_between.mpr ⟨source, targets, found, isRetarget⟩,
      (retarget?_eq_some found isRetarget).1⟩
  lost := by
    intro t member
    obtain ⟨sources, found, _, vanished, isLost⟩ := Losses.mem_targets_between.mp member
    refine ⟨before, rfl, Snapshot.isSome_expanders.mp (Option.isSome_of_eq_some found), ?_⟩
    simpa [vanished] using isLost
  expanders := by
    intro t member source
    obtain ⟨sources, found, expanders, _⟩ := Losses.mem_targets_between.mp member
    rw [expanders, Snapshot.mem_expanders found]
    simp
  targets := by
    rintro target ⟨_, isBefore, expanded, isLost⟩
    cases isBefore
    obtain ⟨sources, found⟩ := Option.isSome_iff_exists.mp (Snapshot.isSome_expanders.mpr expanded)
    refine ⟨⟨target, sources.toList, before.owns target && !current.contains target⟩, ?_, rfl⟩
    exact Losses.mem_targets_between.mpr ⟨sources, found, rfl, rfl, by simpa using isLost⟩

theorem Snapshot.lossesSince_describe (current : Snapshot) (previous : Option Snapshot) :
    (current.lossesSince previous).Describe previous current := by
  cases previous with
  | none =>
    have noRetarget : ∀ source, ¬ IsRetargeted none current source := by simp [IsRetargeted]
    have noLoss : ∀ target, ¬ IsLost none current target := by simp [IsLost]
    constructor <;> simp [Snapshot.lossesSince, noRetarget, noLoss]
  | some before => exact Losses.describe_between before current

end Deductions
