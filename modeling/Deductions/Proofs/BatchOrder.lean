import Deductions.Proofs.Outcome

namespace Deductions

open Batch

section

variable {sources sources' : List ModuleSource} {library : ModuleLibrary} {imports : ImportTable}
  {previous : Option Snapshot}

namespace Batch

variable (perm : sources.Perm sources')
include perm

theorem idsOf_perm : idsOf sources = idsOf sources' := by
  have same : ∀ id, id ∈ (SortedSet.ofList ((builtOf sources).map Prod.fst)).toList ↔
      id ∈ (SortedSet.ofList ((builtOf sources').map Prod.fst)).toList := by
    intro id
    rw [SortedSet.mem_toList_ofList, SortedSet.mem_toList_ofList]
    exact ((perm.map _).map _).mem_iff
  rw [idsOf, idsOf, SortedSet.eq_of_mem_toList same]

variable (distinct : (sources.map ModuleSource.id).Nodup)
include distinct

theorem candidatesOf_perm : candidatesOf sources = candidatesOf sources' := by
  have distinct' := (perm.map ModuleSource.id).nodup_iff.mp distinct
  refine SortedMap.eq_of_find?_eq fun id => Option.ext fun c => ?_
  rw [find?_candidatesOf distinct, find?_candidatesOf distinct']
  simp only [perm.mem_iff]

theorem refusedOf_perm : refusedOf sources = refusedOf sources' := by
  have distinct' := (perm.map ModuleSource.id).nodup_iff.mp distinct
  refine SortedMap.eq_of_find?_eq fun id => Option.ext fun o => ?_
  rw [find?_refusedOf distinct, find?_refusedOf distinct']
  simp only [perm.mem_iff]

theorem dependenciesIn_perm : dependenciesIn sources imports = dependenciesIn sources' imports := by
  rw [dependenciesIn, dependenciesIn, idsOf_perm perm, candidatesOf_perm perm distinct]

/-- The rounds start from the same maps, so each of them takes the same modules. -/
theorem lastProgress_perm : lastProgress sources library imports previous =
    lastProgress sources' library imports previous := by
  rw [lastProgress, lastProgress, candidatesOf_perm perm distinct, refusedOf_perm perm distinct,
    dependenciesIn_perm perm distinct]

/-- Modules that are left over wait for each other in the same way, and lie on the same cycles. -/
theorem resultOf_perm (p : Progress) : resultOf sources imports p = resultOf sources' imports p := by
  have stuck : ∀ id, stuckOutcome sources imports p id = stuckOutcome sources' imports p id := by
    intro id
    rw [stuckOutcome, stuckOutcome, stuckIn, stuckIn, dependenciesIn_perm perm distinct]
  rw [resultOf, resultOf, funext stuck]

end Batch

/-- A batch does not depend on the order of its sources: outcomes, layers and library are the same, and
with them the dependency that is blamed and the cycle that is reported. -/
theorem compileBatch_perm (distinct : (sources.map ModuleSource.id).Nodup) (perm : sources.Perm sources') :
    compileBatch sources library imports previous = compileBatch sources' library imports previous := by
  rw [compileBatch_eq, compileBatch_eq, lastProgress_perm perm distinct, resultOf_perm perm distinct]

end

theorem compileBatch_perm_tangledSources :
    (tangledSources.map ModuleSource.id).Nodup ∧ tangledSources ≠ tangledSources.reverse ∧
    compileBatch tangledSources {} {} none = compileBatch tangledSources.reverse {} {} none ∧
    (compileBatch tangledSources.reverse {} {} none).outcomes.find? ⟨.single "c", .plain 1 0 0⟩ =
      some (.error (.dependencyFailed (.single "c") (.single "a"))) := by
  have distinct : (tangledSources.map ModuleSource.id).Nodup := by decide
  have same : compileBatch tangledSources {} {} none = compileBatch tangledSources.reverse {} {} none :=
    compileBatch_perm distinct (List.reverse_perm _).symm
  refine ⟨distinct, by decide, same, ?_⟩
  rw [← same]
  decide +kernel

end Deductions
