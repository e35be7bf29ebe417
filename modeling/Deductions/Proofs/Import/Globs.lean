import Deductions.Proofs.Import.Pins

namespace Deductions

namespace ImportTable

/-- How a table is made from nothing, by names and wildcards and by other tables, made the same way, that are
laid over it. -/
inductive Making where
  | empty
  | insert (made : Making) (localName : String) (target : ImportTarget)
  | insertGlob (made : Making) (target : ImportTarget)
  | merge (made overrides : Making)

namespace Making

def table : Making → ImportTable
  | empty => {}
  | insert made localName target => made.table.insert localName target
  | insertGlob made target => made.table.insertGlob target
  | merge made overrides => made.table.mergedWith overrides.table

/-- The merges that the table went through, each as the table before it and what was laid over that. -/
def merges : Making → List (ImportTable × ImportTable)
  | empty => []
  | insert made _ _ => made.merges
  | insertGlob made _ => made.merges
  | merge made overrides => made.merges ++ [(made.table, overrides.table)]

end Making

/-- One of the wildcards of the two tables has no version and another one, of the same path, has the version to
which `overrides` pins it. -/
def Coincides (t overrides : ImportTable) : Prop :=
  ∃ path version, ⟨path, none⟩ ∈ t.globs ++ overrides.globs ∧ ⟨path, some version⟩ ∈ t.globs ++ overrides.globs ∧
    overrides.IsFirstPin path version

theorem nodup_addGlob {globs : List ImportTarget} {target : ImportTarget} :
    (addGlob globs target).Nodup ↔ globs.Nodup := by
  rw [addGlob]
  split
  · rfl
  next fresh =>
    rw [List.contains_iff_mem] at fresh
    rw [List.nodup_append_comm, List.singleton_append, List.nodup_cons, and_iff_right fresh]

theorem nodup_foldl_addGlob {globs others : List ImportTarget} :
    (others.foldl addGlob globs).Nodup ↔ globs.Nodup := by
  induction others generalizing globs with
  | nil => rfl
  | cons other others ih => rw [List.foldl_cons, ih, nodup_addGlob]

variable {t overrides : ImportTable}

theorem pin_free_eq_iff {path path' : Path} {version : Version} :
    t.pin ⟨path, none⟩ = ⟨path', some version⟩ ↔ path = path' ∧ t.IsFirstPin path version := by
  rw [← pinFor_eq_some_iff]
  exact ImportTarget.mk.injEq .. ▸ Iff.rfl

/-- Pinning makes two targets the same only where one of them has the version that the other one gets. -/
theorem eq_or_of_pin_eq {a b : ImportTarget} (same : t.pin a = t.pin b) : a = b ∨
    ∃ path version, t.IsFirstPin path version ∧
      (a = ⟨path, none⟩ ∧ b = ⟨path, some version⟩ ∨ a = ⟨path, some version⟩ ∧ b = ⟨path, none⟩) := by
  obtain ⟨path, own⟩ := a
  obtain ⟨path', own'⟩ := b
  obtain rfl : path = path' := by
    have paths := congrArg ImportTarget.path same
    rwa [path_pin, path_pin] at paths
  cases own with
  | none =>
    cases own' with
    | none => exact .inl rfl
    | some version => exact .inr ⟨path, version, (pin_free_eq_iff.mp same).2, .inl ⟨rfl, rfl⟩⟩
  | some version =>
    cases own' with
    | none => exact .inr ⟨path, version, (pin_free_eq_iff.mp same.symm).2, .inr ⟨rfl, rfl⟩⟩
    | some version' => exact .inl same

theorem nodup_globs_mergedWith :
    (t.mergedWith overrides).globs.Nodup ↔ t.globs.Nodup ∧ ¬ t.Coincides overrides := by
  have listed : ∀ target, target ∈ overrides.globs.foldl addGlob t.globs ↔ target ∈ t.globs ++ overrides.globs :=
    fun target => mem_foldl_addGlob.trans List.mem_append.symm
  rw [mergedWith]
  constructor
  · refine fun once => ⟨nodup_foldl_addGlob.mp once.of_map, ?_⟩
    rintro ⟨path, version, free, pinned, first⟩
    have same : overrides.pin ⟨path, none⟩ = overrides.pin ⟨path, some version⟩ := pin_free_eq_iff.mpr ⟨rfl, first⟩
    cases List.inj_on_of_nodup_map once ((listed _).mpr free) ((listed _).mpr pinned) same
  · rintro ⟨once, apart⟩
    refine (nodup_foldl_addGlob.mpr once).map_on fun a inA b inB same => ?_
    rw [listed] at inA inB
    rcases eq_or_of_pin_eq same with rfl | ⟨path, version, first, ⟨rfl, rfl⟩ | ⟨rfl, rfl⟩⟩
    · rfl
    · exact absurd ⟨path, version, inA, inB, first⟩ apart
    · exact absurd ⟨path, version, inB, inA, first⟩ apart

/-- A table that was made step by step has each wildcard once exactly if none of the merges that it went through
gave one of the wildcards, which had no version, the version of another one of the same path. What was laid over
the table adds no second one by itself, whatever it holds. -/
theorem Making.nodup_globs_iff (m : Making) :
    m.table.globs.Nodup ↔ ∀ merge ∈ m.merges, ¬ merge.1.Coincides merge.2 := by
  induction m with
  | empty => exact iff_of_true .nil nofun
  | insert made localName target ih => exact ih
  | insertGlob made target ih => exact nodup_addGlob.trans ih
  | merge made overrides ih _ =>
    rw [merges, List.forall_mem_append, List.forall_mem_singleton, ← ih]
    exact nodup_globs_mergedWith

/-- All of a module at any version, and over it a table with the module pinned, by a name and all of it. -/
def pinningMaking : Making :=
  (Making.empty.insertGlob ⟨.single "lib", none⟩).merge
    ((Making.empty.insert "A" ⟨.single "lib", some (.plain 1 0 0)⟩).insertGlob ⟨.single "lib", some (.plain 1 0 0)⟩)

/-- The wildcard without a version gets the one that the other wildcard has. -/
theorem pinningMaking_repeats :
    pinningMaking.table.globs = [⟨.single "lib", some (.plain 1 0 0)⟩, ⟨.single "lib", some (.plain 1 0 0)⟩] ∧
      ¬ ∀ m : Making, m.table.globs.Nodup := by
  have globs : pinningMaking.table.globs =
      [⟨.single "lib", some (.plain 1 0 0)⟩, ⟨.single "lib", some (.plain 1 0 0)⟩] := by decide
  refine ⟨globs, fun once => ?_⟩
  have twice := once pinningMaking
  rw [globs] at twice
  exact absurd twice (by decide)

end ImportTable

end Deductions
