import Deductions.Proofs.BatchResult
import Deductions.Proofs.Retag.Resolution
import Deductions.Proofs.Schedule

namespace Deductions

open Resolution

namespace Batch

def idAt (version : Version) (path : Path) : ModuleId := ⟨path, version⟩

theorem compare_idAt (version : Version) (path path' : Path) :
    compare (idAt version path) (idAt version path') = compare path path' := by
  have versions : compare version version = .eq := Std.ReflCmp.compare_self
  have lexical : compare (idAt version path) (idAt version path') =
      (compare path path').then (compare version version) := rfl
  rw [lexical, versions]
  cases compare path path' <;> rfl

/-- What is bound to paths, bound to these modules at one version. -/
def mapAt {α : Type} (version : Version) (m : SortedMap Path α) : SortedMap ModuleId α :=
  ⟨m.entries.map fun e => (idAt version e.1, e.2),
    m.sorted.map _ fun e e' less => (compare_idAt version e.1 e'.1).trans less⟩

section

variable {α β : Type} {version : Version} {m : SortedMap Path α}

theorem find?_mapAt_eq_some_iff {id : ModuleId} {a : α} :
    (mapAt version m).find? id = some a ↔ id.version = version ∧ m.find? id.path = some a := by
  rw [SortedMap.find?_eq_some_iff, SortedMap.find?_eq_some_iff, mapAt, List.mem_map]
  constructor
  · rintro ⟨⟨path, a⟩, member, same⟩
    cases same
    exact ⟨rfl, member⟩
  · rintro ⟨rfl, member⟩
    exact ⟨(id.path, a), member, rfl⟩

theorem find?_mapAt (path : Path) : (mapAt version m).find? (idAt version path) = m.find? path :=
  Option.ext fun _ => find?_mapAt_eq_some_iff.trans (and_iff_right rfl)

theorem contains_mapAt (path : Path) : (mapAt version m).contains (idAt version path) = m.contains path := by
  rw [SortedMap.contains, SortedMap.contains, find?_mapAt]

theorem mapAt_insert (path : Path) (a : α) :
    mapAt version (m.insert path a) = (mapAt version m).insert (idAt version path) a := by
  refine SortedMap.eq_of_find?_eq fun id => Option.ext fun b => ?_
  rw [find?_mapAt_eq_some_iff]
  by_cases same : id = idAt version path
  · subst same
    rw [SortedMap.find?_insert_self, show (idAt version path).path = path from rfl, SortedMap.find?_insert_self]
    exact and_iff_right rfl
  · rw [SortedMap.find?_insert_of_ne _ _ same, find?_mapAt_eq_some_iff]
    refine and_congr_right fun atVersion => ?_
    rw [SortedMap.find?_insert_of_ne]
    rintro rfl
    exact same (by rw [← atVersion]; rfl)

theorem mapAt_mapValues (g : α → β) : (mapAt version m).mapValues g = mapAt version (m.mapValues g) := by
  simp only [mapAt, SortedMap.mapValues, List.map_map, Function.comp_def]

theorem mapAt_foldl_insert {γ : Type} (l : List γ) (path : γ → Path) (value : γ → α) :
    l.foldl (fun m e => m.insert (idAt version (path e)) (value e)) (mapAt version m) =
      mapAt version (l.foldl (fun m e => m.insert (path e) (value e)) m) := by
  induction l generalizing m with
  | nil => rfl
  | cons e l ih => rw [List.foldl_cons, List.foldl_cons, ← mapAt_insert, ih]

theorem keys_mapAt : (mapAt version m).keys = m.keys.map (idAt version) := by
  rw [SortedMap.keys, SortedMap.keys, mapAt, List.map_map, List.map_map]
  rfl

theorem values_mapAt : (mapAt version m).values = m.values := by
  rw [SortedMap.values, SortedMap.values, mapAt, List.map_map]
  rfl

end

/-- Whether the candidate has a name by which it depends on the module at the path. -/
def dependsOn (c : Candidate) (imports : ImportTable) (path : Path) : Bool :=
  path != c.module && !c.module.startsWith path && (awaitedNames c imports).any fun n => n.startsWith path

theorem dependencies_map_idAt (c : Candidate) (imports : ImportTable) (version : Version) (paths : List Path) :
    dependencies c imports (paths.map (idAt version)) =
      (paths.filter (dependsOn c imports)).map (idAt version) :=
  List.filter_map

theorem dependsOn_retag (f : Version → Version) (c : Candidate) (imports : ImportTable) :
    dependsOn (c.retag f) imports = dependsOn c imports := by
  have nodes : (c.retag f).graph.nodes.values.flatMap Candidate.narrationNames =
      c.graph.nodes.values.flatMap Candidate.narrationNames := by
    have retagged : (c.retag f).graph.nodes.values = c.graph.nodes.values.map (Node.retag f) :=
      SortedMap.values_mapValues _ _
    rw [retagged, List.flatMap_map]
    rfl
  have names : (c.retag f).externalNames = c.externalNames := by
    rw [Candidate.externalNames, Candidate.externalNames, nodes]
    rfl
  have awaited : awaitedNames (c.retag f) imports = awaitedNames c imports := by
    rw [awaitedNames, awaitedNames, names]
  funext path
  rw [dependsOn, dependsOn, awaited]
  rfl

/-- The candidate at a path is built at the version. -/
def AreBuiltAt (version : Version) (cs : SortedMap Path Candidate) : Prop :=
  ∀ path c, cs.find? path = some c → ∃ source, Candidate.build path version source = .ok c

/-- What a batch at one version waits for. -/
def awaitedAt (version : Version) (awaited : SortedMap Path (List Path)) : SortedMap ModuleId (List ModuleId) :=
  mapAt version (awaited.mapValues (List.map (idAt version)))

theorem dependenciesOf_awaitedAt {version : Version} {awaited : SortedMap Path (List Path)} (path : Path) :
    dependenciesOf (awaitedAt version awaited) (idAt version path) =
      ((awaited.find? path).getD []).map (idAt version) := by
  rw [dependenciesOf, awaitedAt, find?_mapAt, SortedMap.find?_mapValues]
  cases awaited.find? path <;> rfl

/-- Where nothing has failed, nothing is given up. -/
theorem giveUp_of_not_failed {dependencies : SortedMap ModuleId (List ModuleId)}
    {outcomes : SortedMap ModuleId Outcome} (none : ∀ id, failed outcomes id = false) (ids : List ModuleId) :
    giveUp dependencies outcomes ids = (ids, outcomes) := by
  induction ids with
  | nil => rfl
  | cons id ids ih =>
    have noneFailed : ((dependencies.find? id).getD []).find? (failed outcomes) = Option.none :=
      List.find?_eq_none.mpr fun d _ => Bool.eq_false_iff.mp (none d)
    simp only [giveUp, noneFailed, ih]

theorem contains_map_idAt {version : Version} (paths : List Path) (path : Path) :
    (paths.map (idAt version)).contains (idAt version path) = paths.contains path := by
  rw [Bool.eq_iff_iff, List.contains_iff_mem, List.contains_iff_mem, List.mem_map]
  constructor
  · rintro ⟨path', member, same⟩
    cases same
    exact member
  · exact fun member => ⟨path, member, rfl⟩

theorem foldl_insert_ofGraphs {version : Version} {compiled : List (Path × ResolvedModule)} {graphs : SortedMap Path ModuleGraph}
    (ids : ∀ e ∈ compiled, e.2.graph.id = idAt version e.1) :
    (compiled.map Prod.snd).foldl (fun l m => l.insert m.graph) (ModuleLibrary.ofGraphs version graphs) =
      .ofGraphs version (compiled.foldl (fun m e => m.insert e.1 e.2.graph) graphs) := by
  induction compiled generalizing graphs with
  | nil => rfl
  | cons e compiled ih =>
    obtain ⟨first, later⟩ := List.forall_mem_cons.mp ids
    have atVersion : e.2.graph.version = version := congrArg ModuleId.version first
    have module : e.2.graph.module = e.1 := congrArg ModuleId.path first
    rw [List.map_cons, List.foldl_cons, List.foldl_cons, ModuleLibrary.insert_ofGraphs atVersion, module, ih later]

/-- A batch between two rounds, as long as nothing has failed. -/
structure Stage where
  pending : List Path
  compiled : SortedMap Path ResolvedModule
  layers : List (List Path)

namespace Stage

def progress (version : Version) (st : Stage) : Progress where
  pending := st.pending.map (idAt version)
  outcomes := mapAt version (st.compiled.mapValues .ok)
  layers := st.layers.map (List.map (idAt version))
  library := .ofGraphs version (st.compiled.mapValues ResolvedModule.graph)

def retag (f : Version → Version) (st : Stage) : Stage :=
  { st with compiled := st.compiled.mapValues (ResolvedModule.retag f) }

variable (awaited : SortedMap Path (List Path))

def ready (st : Stage) : List Path :=
  st.pending.filter fun path => ((awaited.find? path).getD []).all st.compiled.contains

/-- The next round, in which the ready modules compile. -/
def next (compiled : List (Path × ResolvedModule)) (st : Stage) : Stage where
  pending := st.pending.filter fun path => !(st.ready awaited).contains path
  compiled := compiled.foldl (fun m e => m.insert e.1 e.2) st.compiled
  layers := if (st.ready awaited).isEmpty then st.layers else st.layers ++ [st.ready awaited]

variable {awaited} {version : Version} {st : Stage} {imports : ImportTable} {previous : Option Snapshot}
  {candidates : SortedMap ModuleId Candidate}

theorem not_failed_progress (id : ModuleId) : failed (st.progress version).outcomes id = false := by
  rw [failed, progress, ← mapAt_mapValues, SortedMap.find?_mapValues]
  cases (mapAt version st.compiled).find? id <;> rfl

theorem ready_progress :
    Batch.ready (awaitedAt version awaited) (st.progress version) = (st.ready awaited).map (idAt version) := by
  have done : ∀ path, (st.progress version).outcomes.contains (idAt version path) = st.compiled.contains path :=
    fun path => (contains_mapAt path).trans (SortedMap.contains_mapValues _ _ path)
  rw [Batch.ready, ready, progress, List.filter_map]
  refine congrArg (List.map (idAt version)) (List.filter_congr fun path _ => ?_)
  rw [Function.comp_apply, dependenciesOf_awaitedAt, List.all_map]
  exact congrArg (List.all _) (funext done)

/-- What the modules of the next round come to is recorded, and their graphs are added to the library. -/
theorem round_progress {compiled : List (Path × ResolvedModule)}
    (resolved : resolveLayer candidates imports previous (st.progress version).library
      ((st.ready awaited).map (idAt version)) = compiled.map fun e => (idAt version e.1, .ok e.2))
    (ids : ∀ e ∈ compiled, e.2.graph.id = idAt version e.1) :
    round candidates (awaitedAt version awaited) imports previous (st.progress version) =
      (st.next awaited compiled).progress version := by
  have givenUp : giveUp (awaitedAt version awaited) (st.progress version).outcomes
      ((st.ready awaited).map (idAt version)) = ((st.ready awaited).map (idAt version), (st.progress version).outcomes) :=
    giveUp_of_not_failed not_failed_progress _
  have isLayer : layer (awaitedAt version awaited) (st.progress version) = (st.ready awaited).map (idAt version) := by
    rw [layer, ready_progress, givenUp]
  have pending : (st.progress version).pending.filter
      (fun id => !((st.ready awaited).map (idAt version)).contains id) =
        (st.next awaited compiled).pending.map (idAt version) := by
    rw [progress, next, List.filter_map]
    simp only [Function.comp_def, contains_map_idAt]
  have outcomes : (compiled.map fun e => (idAt version e.1, (.ok e.2 : Outcome))).foldl
      (fun m e => m.insert e.1 e.2) (st.progress version).outcomes =
        mapAt version ((st.next awaited compiled).compiled.mapValues .ok) := by
    rw [List.foldl_map, progress, next, SortedMap.mapValues_foldl_insert]
    exact mapAt_foldl_insert compiled Prod.fst fun e => (Except.ok e.2 : Outcome)
  have layers : (if ((st.ready awaited).map (idAt version)).isEmpty then (st.progress version).layers
      else (st.progress version).layers ++ [(st.ready awaited).map (idAt version)]) =
        (st.next awaited compiled).layers.map (List.map (idAt version)) := by
    rw [List.isEmpty_map, progress, next]
    split
    · rfl
    · rw [List.map_append]
      rfl
  have modules : (compiled.map fun e => (idAt version e.1, (.ok e.2 : Outcome))).filterMap
      (fun e => e.2.toOption) = compiled.map Prod.snd := by
    rw [List.filterMap_map, ← List.filterMap_eq_map]
    rfl
  have library : (compiled.map Prod.snd).foldl (fun l m => l.insert m.graph) (st.progress version).library =
      .ofGraphs version ((st.next awaited compiled).compiled.mapValues ResolvedModule.graph) := by
    rw [progress, next, SortedMap.mapValues_foldl_insert]
    exact foldl_insert_ofGraphs ids
  rw [round, isLayer, resolved, ready_progress, givenUp]
  dsimp only
  rw [pending, outcomes, layers, modules, library]
  rfl

/-- All nodes are of the version. -/
def IsSound (version : Version) (st : Stage) : Prop :=
  ∀ path m, st.compiled.find? path = some m → ∀ inner n, m.graph.node? inner = some n → n.version = version

variable {f : Version → Version}

theorem ready_retag : (st.retag f).ready awaited = st.ready awaited := by
  have done : (st.retag f).compiled.contains = st.compiled.contains :=
    funext fun path => SortedMap.contains_mapValues _ _ path
  rw [ready, ready, done]
  rfl

theorem next_retag (compiled : List (Path × ResolvedModule)) : (st.next awaited compiled).retag f =
    (st.retag f).next awaited (compiled.map fun e => (e.1, e.2.retag f)) := by
  simp only [next, ready_retag]
  simp only [retag, SortedMap.mapValues_foldl_insert, List.foldl_map]

theorem IsSound.next {compiled : List (Path × ResolvedModule)} (sound : st.IsSound version)
    (soundToo : ∀ e ∈ compiled, ∀ inner n, e.2.graph.node? inner = some n → n.version = version) :
    (st.next awaited compiled).IsSound version := by
  intro path m found
  have found : (compiled.foldl (fun m e => m.insert e.1 e.2) st.compiled).find? path = some m := found
  rcases SortedMap.mem_of_find?_foldl_insert found with new | old
  · exact soundToo _ new
  · exact sound path m old

theorem isRetagged_progress (sound : st.IsSound version) {module : Path} {source : Source} {c : Candidate}
    (built : Candidate.build module version source = .ok c) : IsRetagged f c.graph
      ⟨(st.progress version).library, imports, none⟩
      ⟨((st.retag f).progress (f version)).library, imports, previous⟩ := by
  obtain ⟨_, atVersion, _⟩ := Candidate.frame_of_build built
  have atVersion : c.graph.version = version := atVersion
  have graphs : (st.retag f).compiled.mapValues ResolvedModule.graph =
      ModuleLibrary.retagGraphs f (st.compiled.mapValues ResolvedModule.graph) := by
    simp only [retag, ModuleLibrary.retagGraphs, SortedMap.mapValues, List.map_map, Function.comp_def]
    rfl
  simp only [progress, graphs]
  constructor
  case owner => exact ModuleLibrary.owner_retag (by rintro _ ⟨⟩) (by rintro _ ⟨⟩)
  case ownerAt =>
    intro path
    rw [atVersion]
    exact ModuleLibrary.owner_retag (fun _ same => (Option.mem_some_iff.mp same).symm)
      (fun _ same => (Option.mem_some_iff.mp same).symm) path
  case expander =>
    intro target
    rw [atVersion]
    exact ModuleLibrary.expanderOf_retag target c.graph.module
  case atVersion =>
    intro path n found
    rw [Resolution.find?] at found
    split at found
    next own =>
      cases found
      exact ((Candidate.isForest_of_build built).sound path n own).1
    next =>
      split at found
      next g owner =>
        split at found
        · cases found
        have unasked : ∀ asked ∈ (none : Option Version), asked = version := by rintro _ ⟨⟩
        obtain ⟨outer, _, selected⟩ := ModuleLibrary.select_of_owner owner
        rw [ModuleLibrary.select_ofGraphs unasked, SortedMap.find?_mapValues, Option.map_eq_some_iff] at selected
        obtain ⟨m, compiled, rfl⟩ := selected
        rw [atVersion]
        exact sound outer m compiled path n found
      · cases found

/-- What modules come to that are resolved in the next round. -/
theorem resolveLayer_cases {cs : SortedMap Path Candidate} (built : AreBuiltAt version cs)
    {library : ModuleLibrary} {paths : List Path}
    (succeeds : ∀ e ∈ resolveLayer (mapAt version cs) imports none library (paths.map (idAt version)),
      e.2.isError = false) :
    ∃ compiled : List (Path × ResolvedModule),
      resolveLayer (mapAt version cs) imports none library (paths.map (idAt version)) =
        compiled.map (fun e => (idAt version e.1, .ok e.2)) ∧
      ∀ e ∈ compiled, ∃ source c, Candidate.build e.1 version source = .ok c ∧
        c.resolve ⟨library, imports, none⟩ = .ok e.2 := by
  induction paths with
  | nil => exact ⟨[], rfl, fun _ member => nomatch member⟩
  | cons path paths ih =>
    rw [List.map_cons, resolveLayer, List.filterMap_cons, find?_mapAt] at succeeds ⊢
    cases found : cs.find? path with
    | none =>
      simp only [found, Option.map_none] at succeeds ⊢
      exact ih succeeds
    | some c =>
      simp only [found, Option.map_some, List.forall_mem_cons] at succeeds ⊢
      obtain ⟨compiled, same, resolved⟩ := ih succeeds.2
      cases outcome : c.compile ⟨library, imports, none⟩ with
      | error e =>
        rw [outcome] at succeeds
        cases succeeds.1
      | ok m =>
        obtain ⟨source, build⟩ := built path c found
        refine ⟨(path, m) :: compiled, ?_, List.forall_mem_cons.mpr
          ⟨⟨source, c, build, Candidate.compile_eq_ok.mp outcome⟩, resolved⟩⟩
        rw [List.map_cons, ← same]
        rfl

/-- Under other tags they come to the same. -/
theorem resolveLayer_retag (previous : Option Snapshot) {cs : SortedMap Path Candidate}
    (built : AreBuiltAt version cs) (unpinned : imports.IsUnpinned) (sound : st.IsSound version) {paths : List Path}
    {compiled : List (Path × ResolvedModule)}
    (resolved : resolveLayer (mapAt version cs) imports none (st.progress version).library
      (paths.map (idAt version)) = compiled.map fun e => (idAt version e.1, .ok e.2)) :
    resolveLayer (mapAt (f version) (cs.mapValues (Candidate.retag f))) imports previous
        ((st.retag f).progress (f version)).library (paths.map (idAt (f version))) =
      (compiled.map fun e => (e.1, e.2.retag f)).map fun e => (idAt (f version) e.1, .ok e.2) := by
  induction paths generalizing compiled with
  | nil =>
    cases compiled with
    | nil => rfl
    | cons => cases resolved
  | cons path paths ih =>
    rw [List.map_cons, resolveLayer, List.filterMap_cons, find?_mapAt] at resolved ⊢
    rw [SortedMap.find?_mapValues]
    cases found : cs.find? path with
    | none =>
      simp only [found, Option.map_none] at resolved ⊢
      exact ih resolved
    | some c =>
      simp only [found, Option.map_some] at resolved ⊢
      cases compiled with
      | nil => cases resolved
      | cons e compiled =>
        obtain ⟨first, later⟩ := List.cons.inj resolved
        obtain ⟨source, build⟩ := built path c found
        obtain ⟨samePath, outcome⟩ := Prod.mk.inj first
        have samePath : path = e.1 := congrArg ModuleId.path samePath
        have again : (c.retag f).resolve ⟨((st.retag f).progress (f version)).library, imports, previous⟩ =
            .ok (e.2.retag f) := Candidate.resolve_retag build (isRetagged_progress sound build) rfl unpinned rfl
          (Candidate.compile_eq_ok.mp outcome)
        rw [List.map_cons, List.map_cons, ← samePath]
        exact congr (congrArg List.cons (congrArg (Prod.mk _) (Candidate.compile_eq_ok.mpr again))) (ih later)

end Stage

/-- A module that is not pending keeps its outcome to the end. -/
theorem find?_run_of_not_pending {candidates : SortedMap ModuleId Candidate}
    {dependencies : SortedMap ModuleId (List ModuleId)} {imports : ImportTable} {previous : Option Snapshot}
    (fuel : Nat) {p : Progress} {id : ModuleId} (done : id ∉ p.pending) :
    (run candidates dependencies imports previous fuel p).outcomes.find? id = p.outcomes.find? id := by
  refine (run_induction (motive := fun q => id ∉ q.pending ∧ q.outcomes.find? id = p.outcomes.find? id)
    _ _ _ _ (fun q ⟨done, kept⟩ => ?_) fuel ⟨done, rfl⟩).2
  exact ⟨fun member => done (List.mem_filter.mp member).1, (find?_round_of_not_pending done).trans kept⟩

section

variable {f : Version → Version} {version : Version} {imports : ImportTable} (previous : Option Snapshot)
  {awaited : SortedMap Path (List Path)} {cs : SortedMap Path Candidate}

/-- If no module fails in the end, the next round compiles all modules that it resolves. -/
theorem Stage.compiles_next {st : Stage} (built : AreBuiltAt version cs) (fuel : Nat)
    (succeeds : ∀ id, failed (run (mapAt version cs) (awaitedAt version awaited) imports none fuel
      (round (mapAt version cs) (awaitedAt version awaited) imports none (st.progress version))).outcomes id = false) :
    ∃ compiled : List (Path × ResolvedModule),
      resolveLayer (mapAt version cs) imports none (st.progress version).library
        ((st.ready awaited).map (idAt version)) = compiled.map (fun e => (idAt version e.1, .ok e.2)) ∧
      ∀ e ∈ compiled, ∃ source c, Candidate.build e.1 version source = .ok c ∧
        c.resolve ⟨(st.progress version).library, imports, none⟩ = .ok e.2 := by
  refine resolveLayer_cases built fun e member => ?_
  obtain ⟨inside, c, found, outcome⟩ := mem_resolveLayer.mp member
  have isReady : e.1 ∈ Batch.ready (awaitedAt version awaited) (st.progress version) := ready_progress ▸ inside
  have inLayer : e.1 ∈ layer (awaitedAt version awaited) (st.progress version) := by
    rw [layer, giveUp_of_not_failed not_failed_progress]
    exact isReady
  have done : e.1 ∉ (round (mapAt version cs) (awaitedAt version awaited) imports none
      (st.progress version)).pending := fun isPending => by
    have notReady := (List.mem_filter.mp isPending).2
    rw [Bool.not_eq_true', ← Bool.not_eq_true, List.contains_iff_mem] at notReady
    exact notReady isReady
  have atEnd := succeeds e.1
  rw [failed, find?_run_of_not_pending fuel done, find?_round_of_mem_layer inLayer found, ← outcome] at atEnd
  exact atEnd

/-- A batch in which nothing fails goes through the same rounds under other tags. -/
theorem Stage.run_retag (built : AreBuiltAt version cs) (unpinned : imports.IsUnpinned) (fuel : Nat) {st : Stage}
    (sound : st.IsSound version) (succeeds : ∀ id, failed (run (mapAt version cs) (awaitedAt version awaited)
      imports none fuel (st.progress version)).outcomes id = false) : ∃ st' : Stage,
    run (mapAt version cs) (awaitedAt version awaited) imports none fuel (st.progress version) =
      st'.progress version ∧
    run (mapAt (f version) (cs.mapValues (Candidate.retag f))) (awaitedAt (f version) awaited) imports previous fuel
      ((st.retag f).progress (f version)) = (st'.retag f).progress (f version) := by
  induction fuel generalizing st with
  | zero => exact ⟨st, rfl, rfl⟩
  | succ fuel ih =>
    rw [run_succ] at succeeds
    rw [run_succ, run_succ, ready_progress, ready_progress, ready_retag, List.isEmpty_map, List.isEmpty_map]
    rw [ready_progress, List.isEmpty_map] at succeeds
    by_cases noneReady : (st.ready awaited).isEmpty = true
    · rw [if_pos noneReady, if_pos noneReady]
      exact ⟨st, rfl, rfl⟩
    rw [if_neg noneReady] at succeeds ⊢
    rw [if_neg noneReady]
    -- a failure in this round would still be there at the end
    obtain ⟨compiled, resolved, compiles⟩ := compiles_next built fuel succeeds
    have again := resolveLayer_retag (f := f) previous built unpinned sound resolved
    have graphs : ∀ e ∈ compiled, e.2.graph.id = idAt version e.1 ∧
        ∀ inner n, e.2.graph.node? inner = some n → n.version = version := by
      intro e member
      obtain ⟨source, c, build, resolves⟩ := compiles e member
      obtain ⟨module, atVersion, _⟩ := Candidate.frame_of_build build
      have forest := Candidate.isForest_of_build build
      obtain ⟨graph, _⟩ := Candidate.resolve_eq_ok_of_build build _ resolves
      rw [graph]
      exact ⟨congr (congrArg ModuleId.mk module) atVersion,
        fun inner n found => (forest.sound inner n found).1.trans atVersion⟩
    have ids : ∀ e ∈ compiled, e.2.graph.id = idAt version e.1 := fun e member => (graphs e member).1
    have ids' : ∀ e ∈ compiled.map fun e => (e.1, e.2.retag f), e.2.graph.id = idAt (f version) e.1 := by
      intro e member
      obtain ⟨e, inside, rfl⟩ := List.mem_map.mp member
      have module : e.2.graph.module = e.1 := congrArg ModuleId.path (ids e inside)
      have atVersion : e.2.graph.version = version := congrArg ModuleId.version (ids e inside)
      exact congr (congrArg ModuleId.mk module) (congrArg f atVersion)
    rw [← ready_retag (f := f)] at again
    rw [round_progress resolved ids] at succeeds
    rw [round_progress resolved ids, round_progress again ids', ← next_retag]
    exact ih (sound.next fun e member => (graphs e member).2) succeeds

end

end Batch

open Batch

/-- The texts of modules as sources of one version. -/
def sourcesAt (version : Version) (texts : List (Path × String)) : List ModuleSource :=
  texts.map fun t => ⟨t.1, version, t.2⟩

namespace Batch

/-- The candidates of those texts that can be built. -/
def builtAt (version : Version) (texts : List (Path × String)) : SortedMap Path Candidate :=
  SortedMap.ofList (texts.filterMap fun t =>
    (ModuleSource.build ⟨t.1, version, t.2⟩).toOption.map fun c => (t.1, c))

def pathsOf (texts : List (Path × String)) : List Path :=
  SortedSet.toList (SortedSet.ofList (texts.map Prod.fst))

section

variable {version : Version} {texts : List (Path × String)} {f : Version → Version} {imports : ImportTable}

theorem areBuiltAt_builtAt : AreBuiltAt version (builtAt version texts) := by
  intro path c found
  obtain ⟨t, _, same⟩ := List.mem_filterMap.mp (SortedMap.mem_of_find?_ofList found)
  obtain ⟨c', built, same⟩ := Option.map_eq_some_iff.mp same
  cases same
  obtain ⟨source, _, build⟩ := ModuleSource.build_eq_ok_iff.mp (toOption_eq_some_iff.mp built)
  exact ⟨source, build⟩

theorem candidatesOf_sourcesAt : candidatesOf (sourcesAt version texts) = mapAt version (builtAt version texts) := by
  have built : (builtOf (sourcesAt version texts)).filterMap candidate? = (texts.filterMap fun t =>
      (ModuleSource.build ⟨t.1, version, t.2⟩).toOption.map fun c => (t.1, c)).map fun e => (idAt version e.1, e.2) := by
    rw [builtOf, sourcesAt, List.map_map, List.filterMap_map, List.map_filterMap]
    refine List.filterMap_congr fun t _ => ?_
    rw [Option.map_map]
    rfl
  rw [candidatesOf, built, builtAt, SortedMap.ofList, SortedMap.ofList, List.foldl_map]
  exact mapAt_foldl_insert (m := SortedMap.empty) _ Prod.fst Prod.snd

theorem idsOf_sourcesAt : idsOf (sourcesAt version texts) = (pathsOf texts).map (idAt version) := by
  have ids : (builtOf (sourcesAt version texts)).map Prod.fst = (texts.map Prod.fst).map (idAt version) := by
    rw [builtOf, sourcesAt, List.map_map, List.map_map, List.map_map]
    rfl
  rw [idsOf, ids, pathsOf, SortedSet.toList, SortedSet.toList, ← keys_mapAt, SortedSet.ofList, SortedSet.ofList,
    List.foldl_map]
  exact congrArg SortedMap.keys (mapAt_foldl_insert (m := SortedMap.empty) (texts.map Prod.fst) id fun _ => ())

/-- What each of the candidates waits for. -/
def awaitedBy (texts : List (Path × String)) (imports : ImportTable) (cs : SortedMap Path Candidate) :
    SortedMap Path (List Path) := cs.mapValues fun c => (pathsOf texts).filter (dependsOn c imports)

theorem dependenciesIn_sourcesAt : dependenciesIn (sourcesAt version texts) imports =
    awaitedAt version (awaitedBy texts imports (builtAt version texts)) := by
  rw [dependenciesIn, candidatesOf_sourcesAt, idsOf_sourcesAt, mapAt_mapValues, awaitedAt, awaitedBy]
  simp only [dependencies_map_idAt, SortedMap.mapValues, List.map_map, Function.comp_def]

theorem awaitedBy_retag (cs : SortedMap Path Candidate) :
    awaitedBy texts imports (cs.mapValues (Candidate.retag f)) = awaitedBy texts imports cs := by
  simp only [awaitedBy, SortedMap.mapValues, List.map_map, Function.comp_def, dependsOn_retag]

variable (built : ∀ t ∈ texts, ∃ c, ModuleSource.build ⟨t.1, version, t.2⟩ = .ok c)
include built

theorem builtAt_retag : builtAt (f version) texts = (builtAt version texts).mapValues (Candidate.retag f) := by
  have same : (texts.filterMap fun t => (ModuleSource.build ⟨t.1, f version, t.2⟩).toOption.map fun c => (t.1, c)) =
      (texts.filterMap fun t => (ModuleSource.build ⟨t.1, version, t.2⟩).toOption.map fun c => (t.1, c)).map
        fun e => (e.1, e.2.retag f) := by
    rw [List.map_filterMap]
    refine List.filterMap_congr fun t member => ?_
    obtain ⟨c, build⟩ := built t member
    rw [ModuleSource.build_retag build, build]
    rfl
  rw [builtAt, builtAt, same, SortedMap.ofList, SortedMap.ofList, SortedMap.mapValues_foldl_insert, List.foldl_map]
  rfl

theorem refusedOf_sourcesAt : refusedOf (sourcesAt version texts) = SortedMap.empty := by
  refine congrArg SortedMap.ofList (List.filterMap_eq_nil_iff.mpr fun e member => ?_)
  obtain ⟨s, inside, rfl⟩ := List.mem_map.mp member
  obtain ⟨t, inTexts, rfl⟩ := List.mem_map.mp inside
  obtain ⟨c, build⟩ := built t inTexts
  simp only [build]

/-- The first stage of a batch all of whose texts can be built. -/
theorem lastProgress_sourcesAt (previous : Option Snapshot) :
    lastProgress (sourcesAt version texts) {} imports previous =
      run (mapAt version (builtAt version texts))
        (awaitedAt version (awaitedBy texts imports (builtAt version texts))) imports previous
        (builtAt version texts).size
        (Stage.progress version ⟨(builtAt version texts).keys, SortedMap.empty, []⟩) := by
  have size : (mapAt version (builtAt version texts)).size = (builtAt version texts).size := List.length_map _
  rw [lastProgress, candidatesOf_sourcesAt, dependenciesIn_sourcesAt, refusedOf_sourcesAt built, size, keys_mapAt]
  rfl

end

section

variable {sources : List ModuleSource} {library : ModuleLibrary} {imports : ImportTable}
  {previous : Option Snapshot} (succeeded : (compileBatch sources library imports previous).succeeded = true)
include succeeded

theorem pending_of_succeeded : (lastProgress sources library imports previous).pending = [] := by
  refine List.eq_nil_iff_forall_not_mem.mpr fun id isPending => ?_
  cases BatchResult.succeeded_iff.mp succeeded id _ (find?_resultOf_of_pending isPending)

theorem outcomes_of_succeeded : (compileBatch sources library imports previous).outcomes =
    (lastProgress sources library imports previous).outcomes := by
  rw [compileBatch_eq, resultOf, pending_of_succeeded succeeded]
  rfl

theorem not_failed_of_succeeded (id : ModuleId) :
    failed (lastProgress sources library imports previous).outcomes id = false := by
  rw [failed, ← outcomes_of_succeeded succeeded]
  cases found : (compileBatch sources library imports previous).outcomes.find? id with
  | none => rfl
  | some o => exact BatchResult.succeeded_iff.mp succeeded id o found

theorem exists_build_of_succeeded (distinct : (sources.map ModuleSource.id).Nodup) {s : ModuleSource}
    (member : s ∈ sources) : ∃ c, s.build = .ok c := by
  cases build : s.build with
  | ok c => exact ⟨c, rfl⟩
  | error e =>
    have history : IsHistory _ _ imports previous library _ (lastProgress sources library imports previous) :=
      isHistory_lastProgress distinct
    have refused : (refusedOf sources).find? s.id = some (.error e) :=
      (find?_refusedOf distinct).mpr ⟨s, member, rfl, e, build, rfl⟩
    have noCandidate : (candidatesOf sources).contains s.id = false := by
      refine Bool.eq_false_iff.mpr fun isCandidate => ?_
      obtain ⟨s', member', same, c, build'⟩ := (contains_candidatesOf distinct).mp isCandidate
      rw [List.inj_on_of_nodup_map distinct member' member same, build] at build'
      cases build'
    have notFailed := not_failed_of_succeeded succeeded s.id
    rw [failed, history.refused s.id noCandidate, refused] at notFailed
    cases notFailed

end

end Batch

section

variable {version : Version} {texts : List (Path × String)} {imports : ImportTable}
  (distinct : (texts.map Prod.fst).Nodup) (unpinned : imports.IsUnpinned)
  (succeeded : (compileBatch (sourcesAt version texts) {} imports none).succeeded = true)
include distinct unpinned succeeded

/-- The outcomes of a batch in which all modules compile are the same at every version but for the tags,
and whatever the previous snapshot is. -/
theorem exists_outcomes_retag (f : Version → Version) (previous : Option Snapshot) :
    ∃ compiled : SortedMap Path ResolvedModule,
      (compileBatch (sourcesAt version texts) {} imports none).outcomes = mapAt version (compiled.mapValues .ok) ∧
      (compileBatch (sourcesAt (f version) texts) {} imports previous).outcomes =
        mapAt (f version) ((compiled.mapValues (ResolvedModule.retag f)).mapValues .ok) := by
  have distinctIds : ((sourcesAt version texts).map ModuleSource.id).Nodup := by
    have ids : (sourcesAt version texts).map ModuleSource.id = (texts.map Prod.fst).map (idAt version) := by
      rw [sourcesAt, List.map_map, List.map_map]
      rfl
    rw [ids]
    exact distinct.map fun path path' same => congrArg ModuleId.path same
  have built : ∀ t ∈ texts, ∃ c, ModuleSource.build ⟨t.1, version, t.2⟩ = .ok c := fun t member =>
    exists_build_of_succeeded succeeded distinctIds (List.mem_map_of_mem member)
  have built' : ∀ t ∈ texts, ∃ c, ModuleSource.build ⟨t.1, f version, t.2⟩ = .ok c := fun t member => by
    obtain ⟨c, build⟩ := built t member
    exact ⟨c.retag f, ModuleSource.build_retag build⟩
  -- no text is refused and no module is left over, so that the rounds are all there is
  have notFailed := not_failed_of_succeeded succeeded
  have pending := pending_of_succeeded succeeded
  have noneYet : Stage.IsSound version ⟨(builtAt version texts).keys, SortedMap.empty, []⟩ :=
    fun path m found => nomatch found
  rw [lastProgress_sourcesAt built] at notFailed pending
  obtain ⟨st, first, second⟩ := Stage.run_retag (f := f) previous areBuiltAt_builtAt unpinned _ noneYet notFailed
  have again : lastProgress (sourcesAt (f version) texts) {} imports previous =
      (st.retag f).progress (f version) := by
    rw [lastProgress_sourcesAt built', builtAt_retag built, awaitedBy_retag, SortedMap.keys_mapValues, ← second]
    exact congrArg (fun fuel => run _ _ imports previous fuel _) (List.length_map _)
  have done : (lastProgress (sourcesAt (f version) texts) {} imports previous).pending = [] := by
    rw [first] at pending
    rw [again]
    exact congrArg _ (List.map_eq_nil_iff.mp pending)
  refine ⟨st.compiled, ?_, ?_⟩
  · rw [outcomes_of_succeeded succeeded, lastProgress_sourcesAt built, first]
    rfl
  · rw [compileBatch_eq, resultOf, done, again]
    rfl

theorem succeeded_retag (f : Version → Version) (previous : Option Snapshot) :
    (compileBatch (sourcesAt (f version) texts) {} imports previous).succeeded = true := by
  obtain ⟨compiled, _, outcomes⟩ := exists_outcomes_retag distinct unpinned succeeded f previous
  refine BatchResult.succeeded_iff.mpr fun id o found => ?_
  rw [outcomes, find?_mapAt_eq_some_iff, SortedMap.find?_mapValues] at found
  obtain ⟨m, _, rfl⟩ := Option.map_eq_some_iff.mp found.2
  rfl

theorem compiled_retag (f : Version → Version) (previous : Option Snapshot) :
    (compileBatch (sourcesAt (f version) texts) {} imports previous).compiled =
      (compileBatch (sourcesAt version texts) {} imports none).compiled.map (ResolvedModule.retag f) := by
  have values : ∀ (v : Version) (compiled : SortedMap Path ResolvedModule),
      (mapAt v (compiled.mapValues (Except.ok : ResolvedModule → Outcome))).values.filterMap (fun o => o.toOption) =
        compiled.values := by
    intro v compiled
    rw [values_mapAt, SortedMap.values_mapValues, List.filterMap_map]
    exact List.filterMap_some
  obtain ⟨compiled, outcomes, outcomes'⟩ := exists_outcomes_retag distinct unpinned succeeded f previous
  rw [BatchResult.compiled, BatchResult.compiled, outcomes, outcomes', values, values, SortedMap.values_mapValues]

end

end Deductions
