import Deductions.Proofs.Enclosed
import Deductions.Proofs.Outcome

namespace Deductions

open Batch Resolution

namespace BatchResult

/-- The first module is in a layer before that of the second. -/
def ComesBefore (r : BatchResult) (earlier later : ModuleId) : Prop :=
  ∃ before layer after, r.layers = before ++ layer :: after ∧ earlier ∈ before.flatten ∧ later ∈ layer

/-- The first module, compiled before the second and at its version, expands a node that `m` expands. -/
def Forestalls (r : BatchResult) (earlier later : ModuleId) (m : ResolvedModule) : Prop :=
  r.ComesBefore earlier later ∧ earlier.version = later.version ∧ earlier.path ≠ later.path ∧
    ∃ m', r.outcomes.find? earlier = some (.ok m') ∧
      ∃ path ∈ m.graph.expandedPaths, path ∈ m'.graph.expandedPaths

end BatchResult

theorem ModuleSource.compile_eq_ok {s : ModuleSource} {surroundings : Surroundings} {m : ResolvedModule} :
    s.compile surroundings = .ok m ↔ ∃ c, s.build = .ok c ∧ c.resolve surroundings = .ok m := by
  rw [compile]
  cases s.build with
  | error e => simp [bind, Except.bind]
  | ok c => simp [bind, Except.bind, Candidate.compile_eq_ok]

section

variable {sources : List ModuleSource} {previous : Option Snapshot} {s : ModuleSource} {r : ResolvedModule}
  (distinct : (sources.map ModuleSource.id).Nodup) (member : s ∈ sources)
include distinct

theorem BatchResult.HasCompiled.not_isOnCycle {library : ModuleLibrary} {imports : ImportTable}
    {id : ModuleId} (compiled : (compileBatch sources library imports previous).HasCompiled id) :
    ¬ IsOnCycle sources imports id := by
  intro onCycle
  obtain ⟨_, ⟨s, inside, rfl, c, built, _⟩, _⟩ := Relation.TransGen.head'_iff.mp onCycle
  obtain ⟨cycle, failed⟩ := (compileBatch_fate distinct inside built).isCyclic_iff.mpr onCycle
  exact compiled.not_hasFailed ⟨_, failed⟩

include member

theorem hasCompiled_of_dependsOn {library : ModuleLibrary} {imports : ImportTable} {c : Candidate}
    (built : s.build = .ok c) {d : ModuleId} (dependsOn : DependsOn sources imports s.id d)
    (found : (compileBatch sources library imports previous).outcomes.find? s.id = some (.ok r)) :
    (compileBatch sources library imports previous).HasCompiled d := by
  have fate : Fate sources library imports previous (compileBatch sources library imports previous) s.id c :=
    compileBatch_fate distinct member built
  cases fate with
  | cyclic _ outcome =>
    obtain ⟨cycle, outcome⟩ := outcome
    cases outcome.symm.trans found
  | givenUp _ _ _ _ outcome => cases outcome.symm.trans found
  | resolved _ _ _ _ _ _ compiled => exact (compiled d dependsOn).2

/-- Where all that a module depends on has compiled, it is resolved, and nobody else is in its way than
modules that forestall it. -/
theorem find?_compileBatch_of_alone (noImports : s.HasNoImports) (alone : s.compile {} = .ok r)
    (compiled : ∀ d, DependsOn sources {} s.id d → (compileBatch sources {} {} previous).HasCompiled d)
    (free : ∀ id, ¬ (compileBatch sources {} {} previous).Forestalls id s.id r) :
    (compileBatch sources {} {} previous).outcomes.find? s.id = some (.ok r) := by
  obtain ⟨c, built, alone⟩ := ModuleSource.compile_eq_ok.mp alone
  have fate : Fate sources {} {} previous (compileBatch sources {} {} previous) s.id c :=
    compileBatch_fate distinct member built
  cases fate with
  | cyclic onCycle =>
    -- a dependency on the cycle is on it as well, and has not compiled
    obtain ⟨d, dependsOn, back⟩ := Relation.TransGen.head'_iff.mp onCycle
    have onCycle : IsOnCycle sources {} d := Relation.TransGen.tail' back dependsOn
    exact absurd onCycle ((compiled d dependsOn).not_isOnCycle distinct)
  | givenUp _ d dependsOn hasFailed => exact absurd hasFailed (compiled d dependsOn).not_hasFailed
  | resolved _ before after layer split inLayer _ outcome =>
    rw [outcome, Candidate.compile_eq_ok.mpr]
    refine (ModuleSource.resolve_eq_alone_iff built noImports alone).mpr fun path expands => ?_
    refine Classical.byContradiction fun expanded => ?_
    obtain ⟨module, g, held, other, e, inside, expansion, t, atEnd, same⟩ :=
      ModuleLibrary.exists_of_expanderOf expanded
    rcases ModuleLibrary.get?_foldl_insert_cases held with atStart | ⟨compiledBefore, own⟩
    · cases atStart
    obtain ⟨id, earlier, graph⟩ := List.mem_filterMap.mp compiledBefore
    obtain ⟨m', found, rfl⟩ := graphOf?_eq_some_iff.mp graph
    rw [compileBatch_graph distinct found] at own
    subst own
    refine free ⟨module, s.version⟩ ⟨⟨before, layer, after, split, earlier, inLayer⟩, rfl, other, m', found,
      path, expands, ?_⟩
    exact ModuleGraph.mem_expandedPaths.mpr ⟨e, List.mem_filter.mpr ⟨inside, expansion⟩, t, atEnd, same⟩

/-- A module that depends on nothing is not forestalled: it is in the first layer. -/
theorem not_comesBefore_of_independent {library : ModuleLibrary} {imports : ImportTable} {c : Candidate}
    (built : s.build = .ok c) (independent : ∀ d, ¬ DependsOn sources imports s.id d) (id : ModuleId) :
    ¬ (compileBatch sources library imports previous).ComesBefore id s.id := by
  rintro ⟨before, layer, after, split, earlier, later⟩
  have none : dependenciesOf (dependenciesIn sources imports) s.id = [] :=
    List.eq_nil_iff_forall_not_mem.mpr fun d isDependency =>
      independent d ((dependsOn_iff distinct).mpr isDependency)
  have isCandidate := (contains_candidatesOf distinct).mpr ⟨s, member, rfl, c, built⟩
  obtain ⟨ids, rest, first, inFirst⟩ : ∃ ids rest,
      (compileBatch sources library imports previous).layers = ids :: rest ∧ s.id ∈ ids :=
    first_lastProgress distinct isCandidate none
  have once : (compileBatch sources library imports previous).layers.flatten.Nodup :=
    compileBatch_layers_nodup distinct
  rw [flatten_eq_of_split split, List.nodup_append', List.disjoint_append_right] at once
  obtain ⟨_, _, notEarlier, _⟩ := once
  cases before with
  | nil => cases earlier
  | cons ids' before =>
    obtain ⟨rfl, _⟩ := List.cons.inj (first.symm.trans split)
    exact notEarlier (List.mem_append_left _ inFirst) later

/-- Companions of which no name of a module, as written, begins with the path are without effect on it. -/
theorem compileBatch_unrelated (noImports : s.HasNoImports) (alone : s.compile {} = .ok r)
    (independent : ∀ d, ¬ DependsOn sources {} s.id d) :
    (compileBatch sources {} {} previous).outcomes.find? s.id = some (.ok r) := by
  obtain ⟨c, built, _⟩ := ModuleSource.compile_eq_ok.mp alone
  refine find?_compileBatch_of_alone distinct member noImports alone (fun d dependsOn => ?_) fun id => ?_
  · exact absurd dependsOn (independent d)
  · exact fun ⟨before, _⟩ => not_comesBefore_of_independent distinct member built independent id before

/-- A module that compiles by itself, without imports, compiles to the same among companions just if all
modules that its names, as written, begin with have compiled, and none that was compiled before it
expands one of its targets. -/
theorem compileBatch_eq_alone_iff (noImports : s.HasNoImports) (alone : s.compile {} = .ok r) :
    (compileBatch sources {} {} previous).outcomes.find? s.id = some (.ok r) ↔
      (∀ d, DependsOn sources {} s.id d → (compileBatch sources {} {} previous).HasCompiled d) ∧
      ∀ id, ¬ (compileBatch sources {} {} previous).Forestalls id s.id r := by
  refine ⟨fun found => ⟨fun d dependsOn => ?_, fun id => ?_⟩,
    fun ⟨compiled, free⟩ => find?_compileBatch_of_alone distinct member noImports alone compiled free⟩
  · obtain ⟨c, built, _⟩ := ModuleSource.compile_eq_ok.mp alone
    exact hasCompiled_of_dependsOn distinct member built dependsOn found
  · rintro ⟨⟨before, layer, after, split, earlier, later⟩, version, other, m', found', path, expands,
      expands'⟩
    exact compileBatch_uncontested_earlier distinct split later earlier version other found found'
      expands expands'

end

/-- A module that expands an assertion of its own. -/
def selfSource : ModuleSource :=
  ⟨.single "m", .plain 1 0 0, "deduc T \x7b asrt C \x7b en = \"c\" \x7d \x7d deduc P of T.C \x7b\x7d"⟩

/-- A module with which the name of that assertion begins, as it is written. -/
def namesakeSource (text : String) : ModuleSource := ⟨.single "T", .plain 1 0 0, text⟩

theorem selfSource_hasNoImports : selfSource.HasNoImports := by
  have none : (Source.parse selfSource.text).toOption.all (fun source => source.imports.isEmpty) = true := by
    decide +kernel
  intro source parsed
  rw [parsed] at none
  exact List.isEmpty_iff.mp none

theorem compileBatch_eq_alone_iff_selfSource : ∃ r, selfSource.compile {} = .ok r ∧
    (∀ d, DependsOn [selfSource, namesakeSource "deduc A \x7b\x7d"] {} selfSource.id d →
      (compileBatch [selfSource, namesakeSource "deduc A \x7b\x7d"] {} {} none).HasCompiled d) ∧
    ∀ id, ¬ (compileBatch [selfSource, namesakeSource "deduc A \x7b\x7d"] {} {} none).Forestalls id
      selfSource.id r := by
  have compiles : (selfSource.compile {}).toOption.isSome = true := by decide +kernel
  obtain ⟨r, alone⟩ := Option.isSome_iff_exists.mp compiles
  have alone := toOption_eq_some_iff.mp alone
  have same : (compileBatch [selfSource, namesakeSource "deduc A \x7b\x7d"] {} {} none).outcomes.find?
      selfSource.id = some (selfSource.compile {}) := by decide +kernel
  rw [alone] at same
  refine ⟨r, alone, ?_⟩
  exact (compileBatch_eq_alone_iff (by decide) List.mem_cons_self selfSource_hasNoImports alone).mp same

/-- A companion that cannot be read stops a module that has nothing to do with it, if it is called like
one of the declarations of this module. -/
theorem namesakeSource_stops_selfSource : selfSource.HasNoImports ∧
    ([selfSource, namesakeSource "deduc"].map ModuleSource.id).Nodup ∧
    ∃ r, selfSource.compile {} = .ok r ∧ r.external = SortedMap.empty ∧
      (compileBatch [selfSource, namesakeSource "deduc"] {} {} none).outcomes.find? selfSource.id =
        some (.error (.dependencyFailed selfSource.path (.single "T"))) := by
  have compiles : (selfSource.compile {}).toOption.map ResolvedModule.external = some SortedMap.empty := by
    decide +kernel
  obtain ⟨r, alone, within⟩ := Option.map_eq_some_iff.mp compiles
  exact ⟨selfSource_hasNoImports, by decide, r, toOption_eq_some_iff.mp alone, within, by decide +kernel⟩

/-- A module that waits for a companion can be forestalled by a third one, in which its target has a node
of the same path. -/
example : (compileBatch [selfSource, namesakeSource "deduc A of u.B.C \x7b\x7d",
      ⟨.single "u", .plain 1 0 0, "deduc B \x7b asrt C \x7b en = \"c\" \x7d \x7d"⟩,
      ⟨selfSource.path.child "T", .plain 1 0 0, "deduc C \x7b\x7d"⟩,
      ⟨selfSource.path.child "z", .plain 1 0 0, "deduc P of m.T.C \x7b\x7d"⟩] {} {} none).outcomes.find?
        selfSource.id = some (.error (.resolution selfSource.path [.duplicateExpansion
          ((selfSource.path.child "T").child "C") ((selfSource.path.child "z").child "P")
          (selfSource.path.child "P")])) := by
  decide +kernel

end Deductions
