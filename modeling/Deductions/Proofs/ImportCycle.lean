import Deductions.Proofs.CycleSearch
import Deductions.Proofs.Outcome

namespace Deductions

open Batch

/-- Modules of one version, of which each depends on the next, and the last is the first again. -/
structure IsImportCycle (sources : List ModuleSource) (imports : ImportTable) (version : Version)
    (cycle : List Path) : Prop where
  long : 2 ≤ cycle.length
  closed : cycle.head? = cycle.getLast?
  linked : cycle.IsChain fun path next => DependsOn sources imports ⟨path, version⟩ ⟨next, version⟩

theorem DependsOn.mem_map_id {sources : List ModuleSource} {imports : ImportTable} {id d : ModuleId}
    (dependsOn : DependsOn sources imports id d) :
    id ∈ sources.map ModuleSource.id ∧ d ∈ sources.map ModuleSource.id := by
  obtain ⟨s, inside, rfl, c, _, member⟩ := dependsOn
  exact ⟨List.mem_map_of_mem inside, (mem_dependencies.mp member).1⟩

/-- The module is reported with a cycle of imports that it is on. -/
def BatchResult.ShowsCycle (r : BatchResult) (sources : List ModuleSource) (imports : ImportTable)
    (version : Version) (id : ModuleId) : Prop :=
  ∃ cycle, r.outcomes.find? id = some (.error (.cyclicImport id.path cycle)) ∧
    IsImportCycle sources imports version cycle ∧ id.path ∈ cycle

namespace Batch

theorem stuckError_of_mem {stuck : Relation ModuleId} {cycles : List (List ModuleId)} {id : ModuleId}
    (onCycle : stuck.onCycle id = true) (listed : ∃ c ∈ cycles, id ∈ c) :
    ∃ c ∈ cycles, id ∈ c ∧ stuckError stuck cycles id = .cyclicImport id.path (c.map ModuleId.path) := by
  obtain ⟨c, member, inside⟩ := listed
  have some : (cycles.find? fun cycle => cycle.contains id).isSome = true :=
    List.find?_isSome.mpr ⟨c, member, List.contains_iff_mem.mpr inside⟩
  obtain ⟨first, found⟩ := Option.isSome_iff_exists.mp some
  have insideToo := List.find?_some found
  refine ⟨first, List.mem_of_find?_eq_some found, List.contains_iff_mem.mp insideToo, ?_⟩
  rw [stuckError, if_pos onCycle, found]

theorem stuckError_of_not_mem {stuck : Relation ModuleId} {cycles : List (List ModuleId)} {id : ModuleId}
    (onCycle : stuck.onCycle id = true) (unlisted : ¬ ∃ c ∈ cycles, id ∈ c) :
    stuckError stuck cycles id = .cyclicImport id.path [id.path] := by
  have none : (cycles.find? fun cycle => cycle.contains id) = none :=
    List.find?_eq_none.mpr fun c member inside => unlisted ⟨c, member, List.contains_iff_mem.mp inside⟩
  rw [stuckError, if_pos onCycle, none]

section

variable {sources : List ModuleSource} {library : ModuleLibrary} {imports : ImportTable}
  {previous : Option Snapshot} {p : Progress} (distinct : (sources.map ModuleSource.id).Nodup)
  (ended : IsEnd sources library imports previous p)
include distinct ended

theorem IsEnd.isOnCycle_of_cyclicImport {id : ModuleId} {module : Path} {cycle : List Path}
    (found : (resultOf sources imports p).outcomes.find? id = some (.error (.cyclicImport module cycle))) :
    IsOnCycle sources imports id := by
  have isKey : id ∈ (resultOf sources imports p).outcomes.keys :=
    SortedMap.contains_iff.mp (Option.isSome_iff_exists.mpr ⟨_, found⟩)
  obtain ⟨s, inside, rfl⟩ := List.mem_map.mp ((ended.mem_keys_iff distinct).mp isKey)
  cases built : s.build with
  | error e =>
    obtain ⟨done, outcome⟩ := ended.of_refused distinct inside built
    cases found.symm.trans ((find?_resultOf_of_not_pending done).trans outcome)
    rcases ModuleSource.build_error_cases built with ⟨_, same⟩ | ⟨_, same⟩ <;> cases same
  | ok c => exact (ended.fate distinct inside built).isOnCycle_of_cyclicImport found

/-- The cycles among the modules that are pending in the end are cycles of imports. -/
theorem IsEnd.isImportCycle {version : Version} (oneVersion : ∀ s ∈ sources, s.version = version)
    {cycle : List ModuleId} (member : cycle ∈ (stuckIn sources imports p).cycles) :
    IsImportCycle sources imports version (cycle.map ModuleId.path) := by
  obtain ⟨start, rest, rfl, _, linked⟩ := Relation.of_mem_cycles member
  have atVersion : ∀ {id : ModuleId}, id ∈ sources.map ModuleSource.id → id = ⟨id.path, version⟩ := by
    rintro _ member
    obtain ⟨s, inside, rfl⟩ := List.mem_map.mp member
    exact congrArg (ModuleId.mk s.path) (oneVersion s inside)
  constructor
  case long => simp
  case closed => rw [List.head?_map, List.getLast?_map, ← List.cons_append, List.getLast?_concat]; rfl
  case linked =>
    refine (List.isChain_map _).mpr (linked.imp fun id d next => ?_)
    have dependsOn := ((ended.succeeds_iff distinct).mp next).2.2
    rwa [atVersion dependsOn.mem_map_id.1, atVersion dependsOn.mem_map_id.2] at dependsOn

/-- A module on a cycle that the search came upon is reported with such a cycle. -/
theorem IsEnd.showsCycle {version : Version} (oneVersion : ∀ s ∈ sources, s.version = version) {id : ModuleId}
    (onCycle : IsOnCycle sources imports id) (listed : ∃ c ∈ (stuckIn sources imports p).cycles, id ∈ c) :
    (resultOf sources imports p).ShowsCycle sources imports version id := by
  obtain ⟨c, member, inside, error⟩ := stuckError_of_mem ((ended.onCycle_iff distinct).mpr onCycle) listed
  refine ⟨c.map ModuleId.path, ?_, ended.isImportCycle distinct oneVersion member, List.mem_map_of_mem inside⟩
  rw [find?_resultOf_of_pending (ended.cyclic id onCycle), stuckOutcome, error]

theorem IsEnd.find?_of_unlisted {id : ModuleId} (onCycle : IsOnCycle sources imports id)
    (unlisted : ¬ ∃ c ∈ (stuckIn sources imports p).cycles, id ∈ c) :
    (resultOf sources imports p).outcomes.find? id = some (.error (.cyclicImport id.path [id.path])) := by
  rw [find?_resultOf_of_pending (ended.cyclic id onCycle), stuckOutcome,
    stuckError_of_not_mem ((ended.onCycle_iff distinct).mpr onCycle) unlisted]

/-- Every module on a cycle shares one with a module that is reported with a cycle of imports. -/
theorem IsEnd.exists_showsCycle {version : Version} (oneVersion : ∀ s ∈ sources, s.version = version)
    {id : ModuleId} (onCycle : IsOnCycle sources imports id) :
    ∃ d, Relation.ReflTransGen (DependsOn sources imports) id d ∧
      Relation.ReflTransGen (DependsOn sources imports) d id ∧
      (resultOf sources imports p).ShowsCycle sources imports version d := by
  have round := Relation.onCycle_iff.mp ((ended.onCycle_iff distinct).mpr onCycle)
  obtain ⟨d, there, back, listed⟩ := Relation.exists_mem_cycles round
  have dependsOn : ∀ k d, (stuckIn sources imports p).Succeeds k d → DependsOn sources imports k d :=
    fun k d next => ((ended.succeeds_iff distinct).mp next).2.2
  have there := Relation.ReflTransGen.mono dependsOn _ _ there
  have back := Relation.ReflTransGen.mono dependsOn _ _ back
  have onCycleToo := Relation.TransGen.trans_right back (onCycle.trans_left there)
  exact ⟨d, there, back, ended.showsCycle distinct oneVersion onCycleToo listed⟩

end

end Batch

/-- A module that is reported to be on a cycle is on one. The cycle that is reported with it is one through
the module exactly when the search for cycles came upon such a cycle; otherwise it is the module alone, which
still shares a cycle with a module that is reported with one. -/
theorem compileBatch_cyclicImport_iff {sources : List ModuleSource} {library : ModuleLibrary} {imports : ImportTable}
    {previous : Option Snapshot} (distinct : (sources.map ModuleSource.id).Nodup) {version : Version}
    (oneVersion : ∀ s ∈ sources, s.version = version) {id : ModuleId} {module : Path} {cycle : List Path}
    (found : (compileBatch sources library imports previous).outcomes.find? id =
      some (.error (.cyclicImport module cycle))) :
    let stuck := stuckIn sources imports (lastProgress sources library imports previous)
    module = id.path ∧ IsOnCycle sources imports id ∧
      (IsImportCycle sources imports version cycle ∧ module ∈ cycle ↔ ∃ c ∈ stuck.cycles, id ∈ c) ∧
      ((¬ ∃ c ∈ stuck.cycles, id ∈ c) → cycle = [module]) ∧
      ∃ d, Relation.ReflTransGen (DependsOn sources imports) id d ∧
        Relation.ReflTransGen (DependsOn sources imports) d id ∧
        (compileBatch sources library imports previous).ShowsCycle sources imports version d := by
  intro stuck
  have ended : IsEnd sources library imports previous (lastProgress sources library imports previous) :=
    isEnd_lastProgress distinct
  rw [compileBatch_eq] at found ⊢
  have onCycle := ended.isOnCycle_of_cyclicImport distinct found
  have shared := ended.exists_showsCycle distinct oneVersion onCycle
  by_cases listed : ∃ c ∈ stuck.cycles, id ∈ c
  · obtain ⟨cycle', found', isCycle, member⟩ := ended.showsCycle distinct oneVersion onCycle listed
    cases found.symm.trans found'
    exact ⟨rfl, onCycle, iff_of_true ⟨isCycle, member⟩ listed, fun unlisted => absurd listed unlisted, shared⟩
  · cases found.symm.trans (ended.find?_of_unlisted distinct onCycle listed)
    have notCycle : ¬ IsImportCycle sources imports version [id.path] := fun isCycle => absurd isCycle.long (by simp)
    exact ⟨rfl, onCycle, iff_of_false (notCycle ·.1) listed, fun _ => rfl, shared⟩

theorem compileBatch_cyclicImport_iff_tangledSources :
    let version := Version.plain 1 0 0
    let a := Path.single "a"
    let cycle := [a, .single "b", a]
    (compileBatch tangledSources {} {} none).outcomes.find? ⟨a, version⟩ = some (.error (.cyclicImport a cycle)) ∧
      IsImportCycle tangledSources {} version cycle := by
  intro version a cycle
  have found : (compileBatch tangledSources {} {} none).outcomes.find? ⟨a, version⟩ =
      some (.error (.cyclicImport a cycle)) := by decide +kernel
  have oneVersion : ∀ s ∈ tangledSources, s.version = version := by decide
  have listed : ∃ c ∈ (stuckIn tangledSources {} (lastProgress tangledSources {} {} none)).cycles,
      ⟨a, version⟩ ∈ c := by decide +kernel
  exact ⟨found, ((compileBatch_cyclicImport_iff (by decide) oneVersion found).2.2.1.mpr listed).1⟩

/-- Modules `a`, `b`, `c` that import each other round, and a module `d` on a way from `b` to `c`. -/
def detourSources : List ModuleSource :=
  let source (name text : String) : ModuleSource := ⟨.single name, .plain 1 0 0, text⟩
  [source "a" "import b", source "b" "import c\nimport d", source "c" "import a", source "d" "import c"]

/-- The module `d` is on the cycle `a -> b -> d -> c -> a`, but is reported as a cycle of its own. -/
theorem detourSources_lone :
    let version := Version.plain 1 0 0
    let d := Path.single "d"
    (detourSources.map ModuleSource.id).Nodup ∧ (∀ s ∈ detourSources, s.version = version) ∧
      IsOnCycle detourSources {} ⟨d, version⟩ ∧
      (compileBatch detourSources {} {} none).outcomes.find? ⟨d, version⟩ = some (.error (.cyclicImport d [d])) ∧
      ¬ IsImportCycle detourSources {} version [d] := by
  intro version d
  have distinct : (detourSources.map ModuleSource.id).Nodup := by decide
  have found : (compileBatch detourSources {} {} none).outcomes.find? ⟨d, version⟩ =
      some (.error (.cyclicImport d [d])) := by decide +kernel
  have onCycle := (isEnd_lastProgress distinct).isOnCycle_of_cyclicImport distinct found
  exact ⟨distinct, by decide, onCycle, found, fun isCycle => absurd isCycle.long (by decide)⟩

end Deductions
