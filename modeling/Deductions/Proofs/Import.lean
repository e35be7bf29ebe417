import Deductions.Import
import Deductions.Proofs.SortedMap

namespace Deductions

namespace ImportTable

@[simp] theorem path_pin (t : ImportTable) (target : ImportTarget) : (t.pin target).path = target.path := by
  rw [pin]
  split <;> rfl

theorem get?_mergedWith (t overrides : ImportTable) (localName : String) :
    (t.mergedWith overrides).get? localName =
      ((overrides.get? localName).or (t.get? localName)).map overrides.pin := by
  rw [get?, mergedWith, SortedMap.find?_mapValues, SortedMap.find?_union]
  rfl

theorem mem_addGlob {globs : List ImportTarget} {target target' : ImportTarget} :
    target ∈ addGlob globs target' ↔ target ∈ globs ∨ target = target' := by
  rw [addGlob]
  split
  next already =>
    rw [List.contains_iff_mem] at already
    exact ⟨.inl, fun either => either.elim id fun same => same ▸ already⟩
  · rw [List.mem_append, List.mem_singleton]

theorem mem_foldl_addGlob {globs others : List ImportTarget} {target : ImportTarget} :
    target ∈ others.foldl addGlob globs ↔ target ∈ globs ∨ target ∈ others := by
  induction others generalizing globs with
  | nil => simp
  | cons other others ih => rw [List.foldl_cons, ih, mem_addGlob, List.mem_cons, or_assoc]

theorem mem_globs_mergedWith {t overrides : ImportTable} {target : ImportTarget} :
    target ∈ (t.mergedWith overrides).globs ↔
      ∃ given, (given ∈ t.globs ∨ given ∈ overrides.globs) ∧ overrides.pin given = target := by
  rw [mergedWith, List.mem_map]
  simp only [mem_foldl_addGlob]

/-- No target asks for a version. -/
def IsUnpinned (t : ImportTable) : Prop :=
  (∀ localName target, t.get? localName = some target → target.version = none) ∧
    ∀ target ∈ t.globs, target.version = none

namespace IsUnpinned

theorem empty : IsUnpinned {} := ⟨nofun, nofun⟩

variable {t overrides : ImportTable} (unpinned : t.IsUnpinned)
include unpinned

theorem insert (localName : String) (path : Path) : (t.insert localName { path := path }).IsUnpinned := by
  refine ⟨fun name target found => ?_, unpinned.2⟩
  rw [get?, ImportTable.insert] at found
  by_cases same : name = localName
  · rw [same, SortedMap.find?_insert_self] at found
    cases found
    rfl
  · rw [SortedMap.find?_insert_of_ne _ _ same] at found
    exact unpinned.1 name target found

theorem insertGlob (path : Path) : (t.insertGlob { path := path }).IsUnpinned := by
  refine ⟨unpinned.1, fun target member => ?_⟩
  rcases mem_addGlob.mp member with old | rfl
  · exact unpinned.2 target old
  · rfl

theorem version_pin {target : ImportTarget} (free : target.version = none) : (t.pin target).version = none := by
  have noPin : t.pinFor target.path = none := by
    rw [pinFor, Option.bind_eq_none_iff]
    intro target found
    obtain ⟨⟨name, target⟩, entry, rfl⟩ := List.mem_map.mp (List.mem_of_find?_eq_some found)
    exact unpinned.1 name target (SortedMap.find?_eq_some_iff.mpr entry)
  rw [pin, free]
  exact noPin

theorem mergedWith (unpinned' : overrides.IsUnpinned) : (t.mergedWith overrides).IsUnpinned := by
  constructor
  · intro name target found
    rw [get?_mergedWith, Option.map_eq_some_iff] at found
    obtain ⟨target, found, rfl⟩ := found
    refine unpinned'.version_pin ?_
    rcases Option.or_eq_some_iff.mp found with given | ⟨_, own⟩
    · exact unpinned'.1 name target given
    · exact unpinned.1 name target own
  · intro target member
    obtain ⟨given, own | overriding, rfl⟩ := mem_globs_mergedWith.mp member
    · exact unpinned'.version_pin (unpinned.2 given own)
    · exact unpinned'.version_pin (unpinned'.2 given overriding)

end IsUnpinned

end ImportTable

end Deductions
