import Deductions.Proofs.Import

namespace Deductions

/-- One of the two paths begins with the other. -/
def Path.Overlaps (p q : Path) : Prop := p.startsWith q = true ∨ q.startsWith p = true

namespace ImportTable

variable {t overrides : ImportTable}

/-- The name stands for a path that overlaps with this one, at this version. -/
def Pins (t : ImportTable) (localName : String) (path : Path) (version : Version) : Prop :=
  ∃ pinned, t.get? localName = some ⟨pinned, some version⟩ ∧ path.Overlaps pinned

/-- Of all names that pin the path, the first gives it this version. -/
def IsFirstPin (t : ImportTable) (path : Path) (version : Version) : Prop :=
  ∃ localName, t.Pins localName path version ∧
    ∀ other version', t.Pins other path version' → compare localName other ≠ .gt

/-- Some name stands for exactly this path at this version, and none for it at another version. -/
def IsPinnedTo (t : ImportTable) (path : Path) (version : Version) : Prop :=
  (∃ localName, t.get? localName = some ⟨path, some version⟩) ∧
    ∀ other version', t.get? other = some ⟨path, some version'⟩ → version' = version

/-- `pinned` is the target with its own version or, where it has none, with that of the first name of `t` that
pins its path. -/
structure IsPinned (t : ImportTable) (target pinned : ImportTarget) : Prop where
  path : pinned.path = target.path
  kept : ∀ version, target.version = some version → pinned.version = some version
  taken : target.version = none → ∀ version, pinned.version = some version ↔ t.IsFirstPin target.path version

/-- The version that a table pins a path to is that of the first name with an overlapping path. -/
theorem pinFor_eq_some_iff {path : Path} {version : Version} :
    t.pinFor path = some version ↔ t.IsFirstPin path version := by
  have overlaps : ∀ pinned : ImportTarget, (pinned.version.isSome &&
      (path.startsWith pinned.path || pinned.path.startsWith path)) = true ↔
      (∃ v, pinned.version = some v) ∧ path.Overlaps pinned.path := by
    intro pinned
    rw [Bool.and_eq_true, Option.isSome_iff_exists, Bool.or_eq_true]
    rfl
  rw [pinFor, Option.bind_eq_some_iff]
  simp only [SortedMap.find?_values_eq_some_iff, overlaps]
  constructor
  · rintro ⟨⟨pinned, _⟩, ⟨localName, found, ⟨_, overlap⟩, least⟩, rfl⟩
    refine ⟨localName, ⟨pinned, found, overlap⟩, ?_⟩
    rintro other version' ⟨pinned', found', overlap'⟩
    exact least other _ found' ⟨⟨version', rfl⟩, overlap'⟩
  · rintro ⟨localName, ⟨pinned, found, overlap⟩, least⟩
    refine ⟨⟨pinned, some version⟩, ⟨localName, found, ⟨⟨version, rfl⟩, overlap⟩, ?_⟩, rfl⟩
    rintro other ⟨pinned', _⟩ found' ⟨⟨version', rfl⟩, overlap'⟩
    exact least other version' ⟨pinned', found', overlap'⟩

theorem pinFor_eq_none_iff {path : Path} :
    t.pinFor path = none ↔ ∀ localName version, ¬ t.Pins localName path version := by
  constructor
  · rintro none localName version ⟨pinned, found, overlap⟩
    rw [pinFor, Option.bind_eq_none_iff] at none
    cases hit : t.names.values.find? _ with
    | some target =>
      have passed := List.find?_some hit
      rw [none target hit] at passed
      cases passed
    | none =>
      have failed := List.find?_eq_none.mp hit _ (List.mem_map_of_mem (SortedMap.find?_eq_some_iff.mp found))
      simp only [Option.isSome_some, Bool.true_and, Bool.or_eq_true] at failed
      exact failed overlap
  · intro unpinned
    cases pin : t.pinFor path with
    | none => rfl
    | some version =>
      obtain ⟨localName, pins, _⟩ := pinFor_eq_some_iff.mp pin
      exact absurd pins (unpinned localName version)

theorem pin_eq_iff {target pinned : ImportTarget} : t.pin target = pinned ↔ t.IsPinned target pinned := by
  have given : t.IsPinned target (t.pin target) :=
    ⟨path_pin t target, fun version own => by rw [pin, own, own], fun free version => by
      rw [pin, free, pinFor_eq_some_iff]⟩
  constructor
  · rintro rfl
    exact given
  · intro isPinned
    have path : (t.pin target).path = pinned.path := given.path.trans isPinned.path.symm
    have version : (t.pin target).version = pinned.version := by
      refine Option.ext fun version => ?_
      cases own : target.version with
      | some version' => rw [given.kept version' own, isPinned.kept version' own]
      | none => rw [given.taken own, isPinned.taken own]
    cases same : t.pin target
    cases pinned
    simp_all only

/-- The names of the overrides stand for their own targets, and each other name for the path it had, with its
own version or, where it has none, with the version to which the overrides pin exactly that path. -/
structure MergesExactly (t overrides : ImportTable) : Prop where
  overriding : ∀ localName target, overrides.get? localName = some target →
    (t.mergedWith overrides).get? localName = some target
  own : ∀ localName target, overrides.get? localName = none → t.get? localName = some target →
    ∃ merged, (t.mergedWith overrides).get? localName = some merged ∧ merged.path = target.path ∧
      (∀ version, target.version = some version → merged.version = some version) ∧
      (target.version = none → ∀ version, overrides.IsPinnedTo target.path version →
        merged.version = some version)

/-- A name is bound in the merged table if it is in one of the two, to the target that the overrides have for
it before that of `t`, pinned by the overrides. -/
theorem get?_mergedWith_eq_some_iff {localName : String} {merged : ImportTarget} :
    (t.mergedWith overrides).get? localName = some merged ↔ ∃ target,
      (overrides.get? localName = some target ∨ overrides.get? localName = none ∧ t.get? localName = some target) ∧
      overrides.IsPinned target merged := by
  rw [get?_mergedWith, Option.map_eq_some_iff]
  simp only [Option.or_eq_some_iff, pin_eq_iff]

/-- A target stays as it is if it has a version or no name pins its path. -/
theorem pin_eq_self_iff {target : ImportTarget} : t.pin target = target ↔
    (target.version = none → ∀ localName version, ¬ t.Pins localName target.path version) := by
  rw [← pinFor_eq_none_iff, pin]
  cases target with
  | mk path own =>
    cases own with
    | none => simp
    | some version => simp

/-- The merged table binds the names of both, each to its target in the overrides before that in `t`, with the
version of the first pin where there was none. So the names of the overrides keep their targets exactly if none
of their own pins overlaps with one that has no version, and the others take the version to which their exact
path is pinned exactly if the name with it is the first of all that overlap. -/
theorem mergesExactly_iff (t overrides : ImportTable) :
    (∀ localName merged, (t.mergedWith overrides).get? localName = some merged ↔ ∃ target,
      (overrides.get? localName = some target ∨ overrides.get? localName = none ∧ t.get? localName = some target) ∧
      overrides.IsPinned target merged) ∧
    (t.MergesExactly overrides ↔
      (∀ localName path, overrides.get? localName = some ⟨path, none⟩ →
        ∀ other version, ¬ overrides.Pins other path version) ∧
      ∀ localName path version, overrides.get? localName = none → t.get? localName = some ⟨path, none⟩ →
        overrides.IsPinnedTo path version → overrides.IsFirstPin path version) := by
  refine ⟨fun localName merged => get?_mergedWith_eq_some_iff, fun exact => ⟨?_, ?_⟩, fun ⟨apart, first⟩ => ⟨?_, ?_⟩⟩
  · intro localName path given
    have kept := exact.overriding localName _ given
    rw [get?_mergedWith, given, Option.some_or, Option.map_some, Option.some.injEq] at kept
    exact pin_eq_self_iff.mp kept rfl
  · intro localName path version missing own pinned
    obtain ⟨merged, found, _, _, taken⟩ := exact.own localName _ missing own
    rw [get?_mergedWith, missing, own, Option.none_or, Option.map_some, Option.some.injEq] at found
    exact ((pin_eq_iff.mp found).taken rfl version).mp (taken rfl version pinned)
  · intro localName target given
    rw [get?_mergedWith, given, Option.some_or, Option.map_some, pin_eq_self_iff.mpr]
    intro free
    obtain ⟨path, _⟩ := target
    cases free
    exact apart localName path given
  · intro localName target missing own
    have pinned := pin_eq_iff.mp (rfl : overrides.pin target = _)
    refine ⟨overrides.pin target, ?_, pinned.path, pinned.kept, fun free version given => ?_⟩
    · rw [get?_mergedWith, missing, own, Option.none_or, Option.map_some]
    · obtain ⟨path, _⟩ := target
      cases free
      exact (pinned.taken rfl version).mpr (first localName path version missing own given)

/-- A path in a module, and a table with a name for it that asks for no version. -/
def partPath : Path := (Path.single "lib").child "x"

def partImports : ImportTable := ImportTable.insert {} "T" ⟨partPath, none⟩

/-- A pin of the whole module, another pin of the path itself, and the path without a version. -/
def overlappingImports : ImportTable :=
  ((ImportTable.insert {} "A" ⟨.single "lib", some (.plain 1 0 0)⟩).insert "B" ⟨partPath, some (.plain 2 0 0)⟩).insert
    "C" ⟨partPath, none⟩

/-- The name `A` comes before `B`, so `T` gets the version of the whole module although its own path is pinned,
and so does the name `C` of the overrides themselves. -/
theorem overlappingImports_mispin : overlappingImports.IsPinnedTo partPath (.plain 2 0 0) ∧
    (partImports.mergedWith overlappingImports).get? "T" = some ⟨partPath, some (.plain 1 0 0)⟩ ∧
    overlappingImports.get? "C" = some ⟨partPath, none⟩ ∧
    (partImports.mergedWith overlappingImports).get? "C" = some ⟨partPath, some (.plain 1 0 0)⟩ ∧
    ¬ partImports.MergesExactly overlappingImports := by
  have free : overlappingImports.get? "C" = some ⟨partPath, none⟩ := by decide
  have merged : (partImports.mergedWith overlappingImports).get? "C" = some ⟨partPath, some (.plain 1 0 0)⟩ := by
    decide
  refine ⟨⟨⟨"B", by decide⟩, fun other version found => ?_⟩, by decide, free, merged, fun exact => ?_⟩
  · have entry := SortedMap.find?_eq_some_iff.mp found
    have entries : ∀ e ∈ overlappingImports.names.entries, e.2.path = partPath → e.2.version ≠ none →
        e.2.version = some (.plain 2 0 0) := by decide
    exact Option.some.inj (entries _ entry rfl nofun)
  · rw [exact.overriding "C" _ free] at merged
    cases merged

end ImportTable

end Deductions
