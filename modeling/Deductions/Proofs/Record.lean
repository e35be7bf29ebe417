import Deductions.Proofs.Compiled

namespace Deductions

namespace Batch

variable {candidates : SortedMap ModuleId Candidate} {dependencies : SortedMap ModuleId (List ModuleId)}
  {imports : ImportTable} {previous : Option Snapshot} {start : ModuleLibrary} {p : Progress}

variable (candidates dependencies imports previous start) in
/-- What is known between two rounds of the modules that have compiled. -/
structure IsRecord (p : Progress) : Prop where
  pending : ∀ id ∈ p.pending, candidates.contains id = true
  done : ∀ id ∈ p.layers.flatten, id ∉ p.pending
  library : p.library = libraryWith start p.outcomes p.layers.flatten
  compiled : ∀ id m, p.outcomes.find? id = some (.ok m) → id ∈ p.layers.flatten ∧
    ∃ c, candidates.find? id = some c ∧ ∃ before ⊆ p.layers.flatten,
      (∀ d ∈ dependenciesOf dependencies id, d ∈ before) ∧
      c.resolve ⟨libraryWith start p.outcomes before, imports, previous⟩ = .ok m

/-- A module that has compiled after a round had compiled before, or is of the layer of the round. -/
theorem compiled_round_cases {id : ModuleId} {m : ResolvedModule}
    (found : (round candidates dependencies imports previous p).outcomes.find? id = some (.ok m)) :
    p.outcomes.find? id = some (.ok m) ∨ id ∈ layer dependencies p := by
  by_cases member : id ∈ layer dependencies p
  · exact .inr member
  rw [find?_round_of_not_mem_layer member] at found
  have origin : (giveUp dependencies p.outcomes (ready dependencies p)).2.find? id = p.outcomes.find? id ∨ _ :=
    find?_giveUp_cases id
  rcases origin with same | ⟨_, e, refused⟩
  · exact .inl (same ▸ found)
  · cases refused.symm.trans found

namespace IsRecord

/-- What a module of the layer depends on has compiled. -/
theorem awaited (record : IsRecord candidates dependencies imports previous start p) {id : ModuleId}
    (member : id ∈ layer dependencies p) : ∀ d ∈ dependenciesOf dependencies id, d ∈ p.layers.flatten := by
  intro d isDependency
  obtain ⟨isReady, succeeded⟩ := mem_giveUp member
  have finished := List.all_eq_true.mp (List.mem_filter.mp isReady).2 d isDependency
  obtain ⟨o, found⟩ := Option.isSome_iff_exists.mp finished
  have succeeded : o.isError = false := by simpa [failed, found] using succeeded d isDependency
  cases o with
  | error e => cases succeeded
  | ok m => exact (record.compiled d m found).1

theorem done_round (record : IsRecord candidates dependencies imports previous start p) :
    ∀ id ∈ (round candidates dependencies imports previous p).layers.flatten,
      id ∉ (round candidates dependencies imports previous p).pending := by
  intro id member isPending
  obtain ⟨wasPending, notReady⟩ := List.mem_filter.mp isPending
  rw [flatten_layers_round] at member
  rcases List.mem_append.mp member with old | new
  · exact record.done id old wasPending
  · have isReady : id ∈ ready dependencies p := (mem_giveUp new).1
    rw [List.contains_iff_mem.mpr isReady] at notReady
    cases notReady

/-- A round keeps the record. -/
theorem next (record : IsRecord candidates dependencies imports previous start p) :
    IsRecord candidates dependencies imports previous start
      (round candidates dependencies imports previous p) := by
  have stays : ∀ ids ⊆ p.layers.flatten,
      libraryWith start (round candidates dependencies imports previous p).outcomes ids =
        libraryWith start p.outcomes ids := fun ids inside =>
    libraryWith_congr start fun id member => find?_round_of_not_pending (record.done id (inside member))
  have inLayers : p.layers.flatten ⊆ (round candidates dependencies imports previous p).layers.flatten := by
    rw [flatten_layers_round]
    exact List.subset_append_left _ _
  refine ⟨?pending, record.done_round, ?library, ?compiled⟩
  case pending => exact fun id member => record.pending id (List.mem_filter.mp member).1
  case library =>
    exact library_round record.pending record.library fun id member =>
      find?_round_of_not_pending (record.done id member)
  case compiled =>
    intro id m found
    rcases compiled_round_cases found with old | new
    · obtain ⟨member, c, isCandidate, before, inside, awaited, resolved⟩ := record.compiled id m old
      refine ⟨inLayers member, c, isCandidate, before, List.Subset.trans inside inLayers, awaited, ?_⟩
      rw [stays before inside]
      exact resolved
    · obtain ⟨c, isCandidate⟩ := Option.isSome_iff_exists.mp (record.pending id (mem_pending_of_mem_layer new))
      have outcome := Option.some.inj ((find?_round_of_mem_layer new isCandidate).symm.trans found)
      refine ⟨?_, c, isCandidate, p.layers.flatten, inLayers, record.awaited new, ?_⟩
      · rw [flatten_layers_round]
        exact List.mem_append_right _ new
      · rw [stays _ (List.Subset.refl _), ← record.library]
        exact Candidate.compile_eq_ok.mp outcome

end IsRecord

variable {sources : List ModuleSource} {library : ModuleLibrary}

/-- Before the first round nothing has compiled. -/
theorem isRecord_start : IsRecord (candidatesOf sources) (dependenciesIn sources imports) imports previous
    library ⟨(candidatesOf sources).keys, refusedOf sources, [], library⟩ where
  pending _ member := SortedMap.contains_iff.mpr member
  done _ member := nomatch member
  library := rfl
  compiled id m found := by
    obtain ⟨⟨id', outcome⟩, _, refused⟩ := List.mem_filterMap.mp (SortedMap.mem_of_find?_ofList found)
    cases outcome <;> cases refused

theorem isRecord_lastProgress : IsRecord (candidatesOf sources) (dependenciesIn sources imports) imports
    previous library (lastProgress sources library imports previous) :=
  run_induction (motive := IsRecord (candidatesOf sources) (dependenciesIn sources imports) imports previous
    library) _ _ _ _ (fun _ => IsRecord.next) _ isRecord_start

end Batch

open Batch

variable {sources : List ModuleSource} {library : ModuleLibrary} {imports : ImportTable}
  {previous : Option Snapshot}

theorem build_of_find?_candidatesOf {id : ModuleId} {c : Candidate}
    (found : (candidatesOf sources).find? id = some c) : ∃ s ∈ sources, s.id = id ∧ s.build = .ok c := by
  obtain ⟨_, member, same⟩ := List.mem_filterMap.mp (SortedMap.mem_of_find?_ofList found)
  obtain ⟨s, inside, rfl⟩ := List.mem_map.mp member
  obtain ⟨c', built, same⟩ := Option.map_eq_some_iff.mp same
  cases same
  exact ⟨s, inside, rfl, toOption_eq_some_iff.mp built⟩

/-- A module compiled because one of its sources was resolved against the starting library with the
graphs of some of the batch, among them all that it waits for. -/
theorem compileBatch_recorded {id : ModuleId} {m : ResolvedModule}
    (found : (compileBatch sources library imports previous).outcomes.find? id = some (.ok m)) :
    ∃ s ∈ sources, s.id = id ∧ ∃ c, s.build = .ok c ∧ ∃ before,
      (∀ d ∈ dependencies c imports (idsOf sources), d ∈ before) ∧
      c.resolve ⟨libraryWith library (compileBatch sources library imports previous).outcomes before,
        imports, previous⟩ = .ok m := by
  have record : IsRecord _ _ imports previous library (lastProgress sources library imports previous) :=
    isRecord_lastProgress
  rw [compileBatch_eq] at found ⊢
  have isDone : id ∉ (lastProgress sources library imports previous).pending := by
    intro isPending
    cases (find?_resultOf_of_pending isPending).symm.trans found
  rw [find?_resultOf_of_not_pending isDone] at found
  obtain ⟨_, c, isCandidate, before, inside, awaited, resolved⟩ := record.compiled id m found
  obtain ⟨s, member, same, built⟩ := build_of_find?_candidatesOf isCandidate
  refine ⟨s, member, same, c, built, before, fun d isDependency => awaited d ?_, ?_⟩
  · rw [dependenciesOf, dependenciesIn, SortedMap.find?_mapValues, isCandidate]
    exact isDependency
  · rw [libraryWith_congr library fun d earlier => ?_]
    · exact resolved
    · exact find?_resultOf_of_not_pending (record.done d (inside earlier))

/-- A compiled graph has the path and the version of its source. -/
theorem id_of_compiled {id : ModuleId} {m : ResolvedModule}
    (found : (compileBatch sources library imports previous).outcomes.find? id = some (.ok m)) :
    m.graph.id = id := by
  obtain ⟨s, _, rfl, c, built, _, _, resolved⟩ := compileBatch_recorded found
  exact ModuleSource.id_of_resolve built resolved

end Deductions
