import Deductions.Proofs.Compiled
import Deductions.Proofs.Import
import Deductions.Proofs.Lookup
import Deductions.Proofs.Unresolved

namespace Deductions

open Batch Resolution

section

variable {c : Candidate} {imports : ImportTable} {name path : Path}

/-- The names and import targets of a candidate by which it depends on other modules. -/
def awaitedNames (c : Candidate) (imports : ImportTable) : List Path :=
  c.externalNames ++ imports.names.entries.filterMap (fun (localName, target) =>
    if c.externalNames.any fun n => n.head == localName then some target.path else none) ++
    imports.globs.map ImportTarget.path

theorem mem_dependencies {batch : List ModuleId} {id : ModuleId} : id ∈ dependencies c imports batch ↔
    id ∈ batch ∧ (id.path ≠ c.module ∧ c.module.startsWith id.path = false) ∧
      ∃ n ∈ awaitedNames c imports, n.startsWith id.path = true := by
  have names : dependencies c imports batch = batch.filter fun id => id.path != c.module &&
      !c.module.startsWith id.path && (awaitedNames c imports).any fun n => n.startsWith id.path := rfl
  rw [names, List.mem_filter, Bool.and_eq_true, Bool.and_eq_true, bne_iff_ne, Bool.not_eq_true',
    List.any_eq_true]

theorem mem_externalNames {n : Node} {scope : Path} (inside : n ∈ c.graph.walk.getD [])
    (mentions : Mentions c.references n scope name) : name ∈ c.externalNames := by
  rw [Candidate.externalNames, List.mem_append, List.mem_append]
  rcases mentions with ⟨_, narrated⟩ | ⟨r, member, _, _, same⟩
  · exact .inr (List.mem_flatMap.mpr ⟨n, ModuleGraph.mem_nodes_of_mem_walk inside, narrated⟩)
  · exact .inl (.inr (List.mem_map.mpr ⟨r, member, same⟩))

/-- A candidate waits for what its imports and those given from outside stand for. -/
theorem Resolution.IsThrough.mem_awaitedNames {target : ImportTarget}
    (through : IsThrough (c.imports.mergedWith imports) name target path)
    (written : name ∈ c.externalNames) : target.path ∈ awaitedNames c imports := by
  simp only [awaitedNames, List.mem_append]
  rcases through with ⟨bound, _⟩ | ⟨inside, _⟩
  · rw [ImportTable.get?_mergedWith, Option.map_eq_some_iff] at bound
    obtain ⟨given, bound, rfl⟩ := bound
    rw [ImportTable.path_pin]
    rcases Option.or_eq_some_iff.mp bound with outer | ⟨_, own⟩
    · have entry := SortedMap.find?_eq_some_iff.mp outer
      refine .inl (.inr (List.mem_filterMap.mpr ⟨_, entry, ?_⟩))
      have used : (c.externalNames.any fun n => n.head == name.head) = true :=
        List.any_eq_true.mpr ⟨name, written, beq_self_eq_true _⟩
      exact if_pos used
    · have entry := List.mem_map_of_mem (f := Prod.snd) (SortedMap.find?_eq_some_iff.mp own)
      refine .inl (.inl ?_)
      simp only [Candidate.externalNames, List.mem_append]
      exact .inl (.inl (.inl (List.mem_map_of_mem entry)))
  · obtain ⟨given, either, rfl⟩ := ImportTable.mem_globs_mergedWith.mp inside
    rw [ImportTable.path_pin]
    rcases either with own | outer
    · refine .inl (.inl ?_)
      simp only [Candidate.externalNames, List.mem_append]
      exact .inl (.inl (.inr (List.mem_map_of_mem own)))
    · exact .inr (List.mem_map_of_mem outer)

/-- The module holds the place of a name, but the candidate does not wait for it: it is the module of
the candidate or one around it, or it lies inside what an import stands for. -/
structure IsOverlooked (c : Candidate) (imports : ImportTable) (batch : List ModuleId) (name path : Path)
    (id : ModuleId) : Prop where
  holds : path.startsWith id.path = true
  unawaited : id ∉ dependencies c imports batch
  cause : c.module.startsWith id.path = true ∨
    ∃ target, IsThrough (c.imports.mergedWith imports) name target path ∧
      id.path.startsWith target.path = true ∧ id.path ≠ target.path

/-- A module that is no dependency holds a place of a name only if it is overlooked. -/
theorem isOverlooked_of_not_mem {batch : List ModuleId} {id : ModuleId} (member : id ∈ batch)
    (other : id ∉ dependencies c imports batch) (written : name ∈ c.externalNames)
    (leads : path = name ∨ ∃ target, IsThrough (c.imports.mergedWith imports) name target path)
    (holds : path.startsWith id.path = true) : IsOverlooked c imports batch name path id := by
  refine ⟨holds, other, ?_⟩
  by_cases around : c.module.startsWith id.path = true
  · exact .inl around
  have notOwn : id.path ≠ c.module := by
    intro own
    rw [own] at around
    exact around c.module.startsWith_refl
  have unawaited : ∀ n ∈ awaitedNames c imports, ¬ n.startsWith id.path = true := fun n awaited begins =>
    other (mem_dependencies.mpr ⟨member, ⟨notOwn, Bool.eq_false_iff.mpr around⟩, n, awaited, begins⟩)
  rcases leads with rfl | ⟨target, through⟩
  · have awaited : path ∈ awaitedNames c imports :=
      List.mem_append_left _ (List.mem_append_left _ written)
    exact absurd holds (unawaited path awaited)
  · have notAround := unawaited target.path (through.mem_awaitedNames written)
    refine .inr ⟨target, through, ?_, fun same => ?_⟩
    · exact (Path.startsWith_total holds through.startsWith).resolve_right notAround
    · exact notAround (same ▸ target.path.startsWith_refl)

end

/-- What is reported against one library is reported against another just if that one has no node for a place
of the name outside the module. -/
theorem misses_iff_outer {c : Candidate} {l : ModuleLibrary} {imports : ImportTable} {previous : Option Snapshot}
    {node name : Path} (misses : (findings c ⟨l, imports, previous⟩).Misses node name) (l' : ModuleLibrary) :
    (findings c ⟨l', imports, previous⟩).Misses node name ↔
      ∀ place ∈ outerPlaces (c.imports.mergedWith imports) name, Place.node? c.graph l' place = none := by
  constructor
  · intro again
    obtain ⟨_, _, _, _, _, missing⟩ := misses_findings.mp again
    exact (lookup_eq_missing_iff_outer missing).mp missing
  · intro none
    obtain ⟨n, inside, same, scope, mentions, missing⟩ := misses_findings.mp misses
    exact misses_findings.mpr ⟨n, inside, same, scope, mentions, (lookup_eq_missing_iff_outer missing).mpr none⟩

theorem exists_of_libraryWith {start : ModuleLibrary} {outcomes : SortedMap ModuleId Outcome}
    {ids : List ModuleId} {path : Path}
    (differ : (libraryWith start outcomes ids).modules.find? path ≠ start.modules.find? path) :
    ∃ id ∈ ids, ∃ m, outcomes.find? id = some (.ok m) ∧ m.graph.module = path := by
  refine Classical.byContradiction fun none => differ (ModuleLibrary.find?_modules_foldl_insert ?_)
  rintro g member rfl
  obtain ⟨id, inside, compiled⟩ := List.mem_filterMap.mp member
  obtain ⟨m, found, rfl⟩ := graphOf?_eq_some_iff.mp compiled
  exact none ⟨id, inside, m, found, rfl⟩

/-- In the end there is a node for a place of the name, in a module of the batch that the candidate did not
wait for. -/
def Overlooks (c : Candidate) (imports : ImportTable) (batch : List ModuleId) (r : BatchResult) (name : Path) : Prop :=
  ∃ place ∈ outerPlaces (c.imports.mergedWith imports) name, Place.node? c.graph r.library place ≠ none ∧
    ∃ id m, r.outcomes.find? id = some (.ok m) ∧ IsOverlooked c imports batch name place.path id

section

variable {sources : List ModuleSource} {library : ModuleLibrary} {imports : ImportTable}
  {previous : Option Snapshot} (distinct : (sources.map ModuleSource.id).Nodup)
include distinct

/-- Only modules for which a candidate does not wait come into the library with its layer or after it. -/
theorem exists_overlooked {before after : List (List ModuleId)} {layer : List ModuleId} {c : Candidate} {name : Path}
    (split : (compileBatch sources library imports previous).layers = before ++ layer :: after)
    (awaited : ∀ d ∈ dependencies c imports (idsOf sources), d ∈ before.flatten) (written : name ∈ c.externalNames)
    {place : Place} (isPlace : place ∈ outerPlaces (c.imports.mergedWith imports) name)
    (missing : Place.node? c.graph (libraryWith library (compileBatch sources library imports previous).outcomes
      before.flatten) place = none)
    (found : Place.node? c.graph (compileBatch sources library imports previous).library place ≠ none) :
    ∃ id m, (compileBatch sources library imports previous).outcomes.find? id = some (.ok m) ∧
      IsOverlooked c imports (idsOf sources) name place.path id := by
  obtain ⟨outer, around, differ⟩ := exists_module_of_node? missing found
  have flat := flatten_eq_of_split split
  rw [compileBatch_library distinct, flat, libraryWith_append] at differ
  obtain ⟨id, later, m, compiled, rfl⟩ := exists_of_libraryWith differ
  have sameModule : m.graph.module = id.path := congrArg ModuleId.path (compileBatch_graph distinct compiled)
  rw [sameModule] at around
  -- the layers have no module in common, so one of a later layer is no dependency
  have notEarlier : id ∉ before.flatten := fun earlier =>
    (List.disjoint_of_nodup_append (flat ▸ compileBatch_layers_nodup distinct)) earlier later
  obtain ⟨_, _, _, _, _, s, inBatch, ofId, _⟩ := compileBatch_compiled distinct compiled
  exact ⟨id, m, compiled, isOverlooked_of_not_mem (mem_idsOf.mpr ⟨s, inBatch, ofId⟩)
    (fun isDependency => notEarlier (awaited id isDependency)) written (path_of_mem_outerPlaces isPlace)
    (ModuleLibrary.mem_outerPaths around).1⟩

/-- A name that a module of a batch reports as unresolved is so in the end just if it is not overlooked. -/
theorem compileBatch_unresolved_iff {s : ModuleSource} (member : s ∈ sources) {c : Candidate}
    (built : s.build = .ok c) {module node name : Path} {errors : List ResolveError}
    (refused : (compileBatch sources library imports previous).outcomes.find? s.id =
      some (.error (.resolution module errors)))
    (unresolved : .unresolved node name ∈ errors) :
    (∃ errors', c.resolve ⟨(compileBatch sources library imports previous).library, imports, previous⟩ =
      .error errors' ∧ .unresolved node name ∈ errors') ↔
    ¬ Overlooks c imports (idsOf sources) (compileBatch sources library imports previous) name := by
  obtain ⟨before, layer, after, split, inLayer⟩ :=
    exists_split_of_mem_flatten (compileBatch_refused distinct refused)
  obtain ⟨s', member', sameId, c', built', awaited, outcome⟩ := compileBatch_layered distinct split inLayer
  obtain rfl := List.inj_on_of_nodup_map distinct member' member sameId
  obtain rfl : c' = c := Except.ok.inj (built'.symm.trans built)
  have resolved := Candidate.compile_eq_error (Option.some.inj (outcome.symm.trans refused))
  have misses := Candidate.resolve_unresolved_iff.mp ⟨errors, resolved, unresolved⟩
  obtain ⟨n, inside, _, scope, mentions, missing⟩ := misses_findings.mp misses
  have before' := (lookup_eq_missing_iff_outer missing).mp missing
  rw [Candidate.resolve_unresolved_iff, misses_iff_outer misses]
  constructor
  · rintro none ⟨place, isPlace, found, _⟩
    exact found (none place isPlace)
  · intro notOverlooked place isPlace
    refine Classical.byContradiction fun found => notOverlooked ⟨place, isPlace, found, ?_⟩
    exact exists_overlooked distinct split awaited (mem_externalNames inside mentions) isPlace
      (before' place isPlace) found

end

/-- A module with an assertion. -/
def outerSource : ModuleSource :=
  ⟨.single "p", .plain 1 0 0, "deduc T \x7b asrt C \x7b en = \"c\" \x7d \x7d"⟩

/-- A module that expands a node which is nowhere. -/
def straySource : ModuleSource := ⟨.single "r", .plain 1 0 0, "deduc D of p.T.X \x7b\x7d"⟩

theorem compileBatch_unresolved_iff_straySource : ∃ c, straySource.build = .ok c ∧
    (∃ errors, c.resolve ⟨(compileBatch [outerSource, straySource] {} {} none).library, {}, none⟩ =
      .error errors ∧
        .unresolved (straySource.path.child "D") (((Path.single "p").child "T").child "X") ∈ errors) ∧
    ¬ Overlooks c {} (idsOf [outerSource, straySource]) (compileBatch [outerSource, straySource] {} {} none)
      (((Path.single "p").child "T").child "X") := by
  have refusedLater : (straySource.build.toOption.any fun c => c.resolve
      ⟨(compileBatch [outerSource, straySource] {} {} none).library, {}, none⟩ ==
        .error [.unresolved (straySource.path.child "D") (((Path.single "p").child "T").child "X")]) = true := by
    decide +kernel
  obtain ⟨c, built, again⟩ := Option.any_eq_true _ _ |>.mp refusedLater
  have built := toOption_eq_some_iff.mp built
  have again := beq_iff_eq.mp again
  have refused : (compileBatch [outerSource, straySource] {} {} none).outcomes.find? straySource.id =
      some (.error (.resolution straySource.path
        [.unresolved (straySource.path.child "D") (((Path.single "p").child "T").child "X")])) := by
    decide +kernel
  exact ⟨c, built, ⟨_, again, List.mem_singleton_self _⟩,
    (compileBatch_unresolved_iff (by decide) (by simp) built refused (by simp)).mp
      ⟨_, again, List.mem_singleton_self _⟩⟩

/-- A module inside the first, which expands the assertion by its full name. -/
def innerSource : ModuleSource := ⟨outerSource.path.child "q", .plain 1 0 0, "deduc D of p.T.C \x7b\x7d"⟩

/-- A module does not wait for one around it: what is inside is resolved at the same time, and would
be resolved without an error afterwards. -/
theorem innerSource_resolves_later : ∃ c m, innerSource.build = .ok c ∧
    (compileBatch [outerSource, innerSource] {} {} none).outcomes.find? innerSource.id =
      some (.error (.resolution innerSource.path
        [.unresolved (innerSource.path.child "D") (((Path.single "p").child "T").child "C")])) ∧
    c.resolve ⟨(compileBatch [outerSource, innerSource] {} {} none).library, {}, none⟩ = .ok m := by
  have resolves : (innerSource.build.toOption.bind fun c => (c.resolve
      ⟨(compileBatch [outerSource, innerSource] {} {} none).library, {}, none⟩).toOption).isSome = true := by
    decide +kernel
  obtain ⟨m, resolves⟩ := Option.isSome_iff_exists.mp resolves
  obtain ⟨c, built, resolved⟩ := Option.bind_eq_some_iff.mp resolves
  exact ⟨c, m, toOption_eq_some_iff.mp built, by decide +kernel, toOption_eq_some_iff.mp resolved⟩

end Deductions
