import Deductions.Proofs.BatchResult
import Deductions.Proofs.Candidate
import Deductions.Proofs.Resolution
import Deductions.Proofs.Source.Accepted

namespace Deductions

theorem ModuleSource.build_eq_ok_iff {s : ModuleSource} {c : Candidate} : s.build = .ok c ↔
    ∃ source, Source.parse s.text = .ok source ∧ Candidate.build s.path s.version source = .ok c := by
  cases parsed : Source.parse s.text with
  | error e => simp [build, parsed, Except.mapError, bind, Except.bind]
  | ok source =>
    cases outcome : Candidate.build s.path s.version source <;>
      simp [build, parsed, outcome, Except.mapError, bind, Except.bind]

theorem ModuleSource.build_eq_ok {s : ModuleSource} {c : Candidate} (built : s.build = .ok c) :
    ∃ source : Source, source.IsWellFormed ∧ Candidate.build s.path s.version source = .ok c := by
  obtain ⟨source, parsed, build⟩ := build_eq_ok_iff.mp built
  exact ⟨source, Source.isWellFormed_of_parse parsed, build⟩

/-- A module that cannot be built cannot be read, or something is wrong with its nodes. -/
theorem ModuleSource.build_error_cases {s : ModuleSource} {e : CompileError} (refused : s.build = .error e) :
    (∃ error, e = .syntactic s.path s.version error) ∨ ∃ error, e = .construction error := by
  cases parsed : Source.parse s.text with
  | error error =>
    simp only [build, parsed, Except.mapError, bind, Except.bind, Except.error.injEq] at refused
    exact .inl ⟨error, refused.symm⟩
  | ok source =>
    cases outcome : Candidate.build s.path s.version source with
    | error error =>
      simp only [build, parsed, outcome, Except.mapError, bind, Except.bind, Except.error.injEq] at refused
      exact .inr ⟨error, refused.symm⟩
    | ok c => simp [build, parsed, outcome, Except.mapError, bind, Except.bind] at refused

/-- A module that cannot be built does not come to be resolved. -/
theorem ModuleSource.build_ne_resolution (s : ModuleSource) (module : Path) (errors : List ResolveError) :
    s.build ≠ .error (.resolution module errors) := by
  intro refused
  rcases build_error_cases refused with ⟨_, same⟩ | ⟨_, same⟩ <;> cases same

theorem Candidate.compile_eq_ok {c : Candidate} {s : Surroundings} {m : ResolvedModule} :
    c.compile s = .ok m ↔ c.resolve s = .ok m := by
  rw [compile]
  cases c.resolve s <;> simp [Except.mapError]

theorem Candidate.compile_eq_error {c : Candidate} {s : Surroundings} {module : Path}
    {errors : List ResolveError} (refused : c.compile s = .error (.resolution module errors)) :
    c.resolve s = .error errors := by
  rw [compile] at refused
  cases outcome : c.resolve s <;> simp_all [Except.mapError]

theorem BatchResult.mem_compiled {r : BatchResult} {m : ResolvedModule} :
    m ∈ r.compiled ↔ ∃ id, r.outcomes.find? id = some (.ok m) := by
  simp only [compiled, SortedMap.values, List.mem_filterMap, List.mem_map, SortedMap.find?_eq_some_iff]
  constructor
  · rintro ⟨_, ⟨⟨id, o⟩, member, rfl⟩, isOk⟩
    exact ⟨id, Batch.toOption_eq_some_iff.mp isOk ▸ member⟩
  · rintro ⟨id, member⟩
    exact ⟨_, ⟨_, member, rfl⟩, rfl⟩

theorem BatchResult.succeeded_iff {r : BatchResult} :
    r.succeeded = true ↔ ∀ id o, r.outcomes.find? id = some o → o.isError = false := by
  simp only [succeeded, List.all_eq_true, Bool.not_eq_true', SortedMap.values, List.forall_mem_map,
    SortedMap.find?_eq_some_iff, Prod.forall]

/-- A resolved graph has the path and the version of its source. -/
theorem ModuleSource.id_of_resolve {source : ModuleSource} {c : Candidate} {s : Surroundings}
    {m : ResolvedModule} (built : source.build = .ok c) (resolved : c.resolve s = .ok m) :
    m.graph.id = source.id := by
  obtain ⟨_, _, build⟩ := source.build_eq_ok built
  obtain ⟨module, version, _⟩ := Candidate.frame_of_build build
  obtain ⟨_, graph, _⟩ := Candidate.resolve_eq_ok resolved
  rw [graph, ModuleGraph.id, ModuleSource.id, ← module, ← version]
  rfl

section

open Batch

variable {sources : List ModuleSource} {library : ModuleLibrary} {imports : ImportTable}
  {previous : Option Snapshot} (distinct : (sources.map ModuleSource.id).Nodup)
include distinct

theorem compileBatch_compiled {id : ModuleId} {m : ResolvedModule}
    (found : (compileBatch sources library imports previous).outcomes.find? id = some (.ok m)) :
    ∃ before layer after, (compileBatch sources library imports previous).layers = before ++ layer :: after ∧
      id ∈ layer ∧ ∃ s ∈ sources, s.id = id ∧ ∃ c, s.build = .ok c ∧
        c.resolve ⟨libraryWith library (compileBatch sources library imports previous).outcomes
          before.flatten, imports, previous⟩ = .ok m := by
  rcases compileBatch_cases distinct found with inLayers | ⟨_, _, _, _, _, same⟩ | ⟨_, same⟩ | ⟨_, same⟩
  · obtain ⟨before, layer, after, split, member⟩ := exists_split_of_mem_flatten inLayers
    obtain ⟨s, inside, same, c, built, _, outcome⟩ := compileBatch_layered distinct split member
    have resolved := Option.some.inj (outcome.symm.trans found)
    exact ⟨before, layer, after, split, member, s, inside, same, c, built,
      Candidate.compile_eq_ok.mp resolved⟩
  all_goals cases same

theorem compileBatch_refused {id : ModuleId} {module : Path} {errors : List ResolveError}
    (found : (compileBatch sources library imports previous).outcomes.find? id =
      some (.error (.resolution module errors))) :
    id ∈ (compileBatch sources library imports previous).layers.flatten := by
  rcases compileBatch_cases distinct found with inLayers | ⟨s, _, _, e, failed, same⟩ | ⟨_, same⟩ | ⟨_, same⟩
  · exact inLayers
  · cases same
    exact absurd failed (s.build_ne_resolution module errors)
  all_goals cases same

/-- A compiled graph has the path and the version of its source. -/
theorem compileBatch_graph {id : ModuleId} {m : ResolvedModule}
    (found : (compileBatch sources library imports previous).outcomes.find? id = some (.ok m)) :
    m.graph.id = id := by
  obtain ⟨_, _, _, _, _, s, _, rfl, c, built, resolved⟩ := compileBatch_compiled distinct found
  exact ModuleSource.id_of_resolve built resolved

end

end Deductions
