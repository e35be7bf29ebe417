import Deductions.Proofs.Cycle
import Deductions.Proofs.Schedule

namespace Deductions

open Batch

section

variable (sources : List ModuleSource) (imports : ImportTable)

/-- The module `id`, which was built, depends on the module `d` of the batch, built or not. -/
def DependsOn (id d : ModuleId) : Prop :=
  ∃ s ∈ sources, s.id = id ∧ ∃ c, s.build = .ok c ∧
    d ∈ dependencies c imports (sources.map ModuleSource.id)

/-- The module depends on itself, over any number of modules. -/
def IsOnCycle (id : ModuleId) : Prop := Relation.TransGen (DependsOn sources imports) id id

end

namespace BatchResult

def HasCompiled (r : BatchResult) (id : ModuleId) : Prop := ∃ m, r.outcomes.find? id = some (.ok m)

def HasFailed (r : BatchResult) (id : ModuleId) : Prop := ∃ e, r.outcomes.find? id = some (.error e)

def IsCyclic (r : BatchResult) (id : ModuleId) : Prop :=
  ∃ cycle, r.outcomes.find? id = some (.error (.cyclicImport id.path cycle))

/-- The module was given up for a dependency of this path. -/
def IsGivenUpFor (r : BatchResult) (id : ModuleId) (dependency : Path) : Prop :=
  r.outcomes.find? id = some (.error (.dependencyFailed id.path dependency))

end BatchResult

/-- What can come of a module that was built. -/
inductive Fate (sources : List ModuleSource) (library : ModuleLibrary) (imports : ImportTable)
    (previous : Option Snapshot) (r : BatchResult) (id : ModuleId) (c : Candidate) : Prop
  | cyclic (onCycle : IsOnCycle sources imports id) (outcome : r.IsCyclic id)
  | givenUp (offCycle : ¬ IsOnCycle sources imports id) (d : ModuleId)
      (dependsOn : DependsOn sources imports id d) (hasFailed : r.HasFailed d)
      (outcome : r.IsGivenUpFor id d.path)
  | resolved (offCycle : ¬ IsOnCycle sources imports id) (before after : List (List ModuleId))
      (layer : List ModuleId) (split : r.layers = before ++ layer :: after) (member : id ∈ layer)
      (compiled : ∀ d, DependsOn sources imports id d → d ∈ before.flatten ∧ r.HasCompiled d)
      (outcome : r.outcomes.find? id = some (c.compile
        ⟨libraryWith library r.outcomes before.flatten, imports, previous⟩))

namespace Batch

/-- What is known of a batch after its last round: no pending module is ready, and none that lies on a
cycle ever was. -/
structure IsEnd (sources : List ModuleSource) (library : ModuleLibrary) (imports : ImportTable)
    (previous : Option Snapshot) (p : Progress) : Prop where
  history : IsHistory (candidatesOf sources) (dependenciesIn sources imports) imports previous library
    (refusedOf sources) p
  ready : ready (dependenciesIn sources imports) p = []
  cyclic : ∀ id, IsOnCycle sources imports id → id ∈ p.pending

theorem failed_iff {outcomes : SortedMap ModuleId Outcome} {id : ModuleId} :
    failed outcomes id = true ↔ ∃ e, outcomes.find? id = some (.error e) := by
  rw [failed]
  cases outcomes.find? id with
  | none => simp
  | some o => cases o <;> simp [Outcome.isError]

section

variable {sources : List ModuleSource} {library : ModuleLibrary} {imports : ImportTable}
  {previous : Option Snapshot} {p : Progress} {s : ModuleSource} {id d : ModuleId}
  (distinct : (sources.map ModuleSource.id).Nodup)
include distinct

theorem dependsOn_iff : DependsOn sources imports id d ↔
    d ∈ dependenciesOf (dependenciesIn sources imports) id := by
  rw [dependenciesOf, dependenciesIn, SortedMap.find?_mapValues]
  have same : ∀ c : Candidate, d ∈ dependencies c imports (sources.map ModuleSource.id) ↔
      d ∈ dependencies c imports (idsOf sources) := by
    intro c
    rw [mem_dependencies, mem_dependencies, mem_idsOf, List.mem_map]
  constructor
  · rintro ⟨s, inside, atId, c, built, member⟩
    rw [(find?_candidatesOf distinct).mpr ⟨s, inside, atId, built⟩]
    exact (same c).mp member
  · intro member
    cases found : (candidatesOf sources).find? id with
    | none =>
      rw [found] at member
      cases member
    | some c =>
      rw [found] at member
      obtain ⟨s, inside, atId, built⟩ := (find?_candidatesOf distinct).mp found
      exact ⟨s, inside, atId, c, built, (same c).mpr member⟩

theorem isEnd_lastProgress : IsEnd sources library imports previous
    (lastProgress sources library imports previous) where
  history := isHistory_lastProgress distinct
  ready := ready_run (by rw [SortedMap.keys, List.length_map]; exact Nat.le_refl _)
  cyclic := by
    intro id onCycle
    refine mem_pending_lastProgress distinct ?_ ?_ onCycle
    · intro id onCycle
      obtain ⟨_, ⟨s, inside, same, c, built, _⟩, _⟩ := Relation.TransGen.head'_iff.mp onCycle
      exact (contains_candidatesOf distinct).mpr ⟨s, inside, same, c, built⟩
    · intro id onCycle
      obtain ⟨d, first, back⟩ := Relation.TransGen.head'_iff.mp onCycle
      exact ⟨d, (dependsOn_iff distinct).mp first, Relation.TransGen.tail' back first⟩

theorem contains_candidatesOf_of_refused (member : s ∈ sources) {e : CompileError}
    (refused : s.build = .error e) : (candidatesOf sources).contains s.id = false := by
  refine Bool.eq_false_iff.mpr fun isCandidate => ?_
  obtain ⟨s', inside, same, c, built⟩ := (contains_candidatesOf distinct).mp isCandidate
  obtain rfl := List.inj_on_of_nodup_map distinct inside member same
  rw [built] at refused
  cases refused

variable (ended : IsEnd sources library imports previous p)
include ended

theorem IsEnd.of_refused (member : s ∈ sources) {e : CompileError} (refused : s.build = .error e) :
    s.id ∉ p.pending ∧ p.outcomes.find? s.id = some (.error e) := by
  have noCandidate := contains_candidatesOf_of_refused distinct member refused
  constructor
  · intro isPending
    rw [(ended.history.pending s.id isPending).1] at noCandidate
    cases noCandidate
  · rw [ended.history.refused s.id noCandidate]
    exact (find?_refusedOf distinct).mpr ⟨s, member, rfl, e, refused, rfl⟩

theorem IsEnd.exists_outcome (member : s ∈ sources) (done : s.id ∉ p.pending) :
    ∃ o, p.outcomes.find? s.id = some o := by
  cases built : s.build with
  | error e => exact ⟨_, (ended.of_refused distinct member built).2⟩
  | ok c =>
    have isCandidate := (contains_candidatesOf distinct).mpr ⟨s, member, rfl, c, built⟩
    rcases ended.history.done s.id isCandidate done with inLayers | ⟨d, _, _, outcome⟩
    · obtain ⟨before, layer, after, split, inLayer⟩ := exists_split_of_mem_flatten inLayers
      obtain ⟨_, c', _, outcome⟩ := ended.history.layered before layer after split s.id inLayer
      exact ⟨_, outcome⟩
    · exact ⟨_, outcome⟩

/-- The rounds only end when each pending module waits for a pending one. -/
theorem IsEnd.exists_pending (isPending : id ∈ p.pending) :
    ∃ d ∈ p.pending, DependsOn sources imports id d := by
  have waits : ¬ (dependenciesOf (dependenciesIn sources imports) id).all p.outcomes.contains = true := by
    intro all
    have isReady : id ∈ Batch.ready (dependenciesIn sources imports) p :=
      List.mem_filter.mpr ⟨isPending, all⟩
    rw [ended.ready] at isReady
    cases isReady
  rw [List.all_eq_true] at waits
  simp only [not_forall] at waits
  obtain ⟨d, isDependency, unfinished⟩ := waits
  have dependsOn := (dependsOn_iff distinct).mpr isDependency
  refine ⟨d, Classical.byContradiction fun done => unfinished ?_, dependsOn⟩
  obtain ⟨_, _, _, _, _, member⟩ := dependsOn
  obtain ⟨s, inside, rfl⟩ := List.mem_map.mp (mem_dependencies.mp member).1
  exact Option.isSome_iff_exists.mpr (ended.exists_outcome distinct inside done)

omit distinct in
theorem IsEnd.find?_stuckIn_iff {ds : List ModuleId} :
    (stuckIn sources imports p).find? id = some ds ↔ id ∈ p.pending ∧
      ds = (dependenciesOf (dependenciesIn sources imports) id).filter p.pending.contains := by
  refine (SortedMap.find?_ofList_eq_some_iff ?_).trans ?_
  · rw [List.map_map]
    exact (List.map_id _).symm ▸ ended.history.distinctPending
  · rw [List.mem_map]
    constructor
    · rintro ⟨id, member, same⟩
      cases same
      exact ⟨member, rfl⟩
    · rintro ⟨member, rfl⟩
      exact ⟨id, member, rfl⟩

theorem IsEnd.succeeds_iff : (stuckIn sources imports p).Succeeds id d ↔
    id ∈ p.pending ∧ d ∈ p.pending ∧ DependsOn sources imports id d := by
  rw [Relation.Succeeds, Relation.successors]
  constructor
  · intro next
    cases found : (stuckIn sources imports p).find? id with
    | none =>
      rw [found] at next
      cases next
    | some ds =>
      obtain ⟨isPending, same⟩ := ended.find?_stuckIn_iff.mp found
      rw [found, same] at next
      obtain ⟨isDependency, nextPending⟩ := List.mem_filter.mp next
      exact ⟨isPending, by simpa using nextPending, (dependsOn_iff distinct).mpr isDependency⟩
  · rintro ⟨isPending, nextPending, dependsOn⟩
    rw [ended.find?_stuckIn_iff.mpr ⟨isPending, rfl⟩]
    exact List.mem_filter.mpr ⟨(dependsOn_iff distinct).mp dependsOn, by simpa using nextPending⟩

/-- The cycles of a batch are those among the modules that are pending in the end. -/
theorem IsEnd.onCycle_iff : (stuckIn sources imports p).onCycle id = true ↔ IsOnCycle sources imports id := by
  rw [Relation.onCycle_iff]
  constructor
  · exact Relation.TransGen.mono (fun _ _ next => ((ended.succeeds_iff distinct).mp next).2.2) _ _
  · intro onCycle
    -- whatever lies on the way from the module back to it is on a cycle as well
    have pending : ∀ k, Relation.ReflTransGen (DependsOn sources imports) id k →
        Relation.ReflTransGen (DependsOn sources imports) k id → k ∈ p.pending := fun k there back =>
      ended.cyclic k ((Relation.TransGen.trans_right back onCycle).trans_left there)
    obtain ⟨d, first, back⟩ := Relation.TransGen.head'_iff.mp onCycle
    have start := (ended.succeeds_iff distinct).mpr
      ⟨pending id .refl .refl, pending d (.single first) back, first⟩
    refine Relation.TransGen.head' start ?_
    have there := Relation.ReflTransGen.single first
    clear start first
    induction back using Relation.ReflTransGen.head_induction_on with
    | refl => exact .refl
    | @head k m next back ih =>
      refine .head ((ended.succeeds_iff distinct).mpr ⟨?_, ?_, next⟩) (ih (there.tail next))
      · exact pending k there (.head next back)
      · exact pending m (there.tail next) back

/-- A module that is pending in the end lies on a cycle, or is given up for another pending one. -/
theorem IsEnd.stuckError_cases (isPending : id ∈ p.pending) (cycles : List (List ModuleId)) :
    (IsOnCycle sources imports id ∧
      ∃ cycle, stuckError (stuckIn sources imports p) cycles id = .cyclicImport id.path cycle) ∨
    ¬ IsOnCycle sources imports id ∧ ∃ d ∈ p.pending, DependsOn sources imports id d ∧
      stuckError (stuckIn sources imports p) cycles id = .dependencyFailed id.path d.path := by
  rw [stuckError]
  split
  next onCycle =>
    refine .inl ⟨(ended.onCycle_iff distinct).mp onCycle, ?_⟩
    split
    · exact ⟨_, rfl⟩
    · exact ⟨_, rfl⟩
  next offCycle =>
    refine .inr ⟨mt (ended.onCycle_iff distinct).mpr offCycle, ?_⟩
    split
    next d rest first =>
      have next : (stuckIn sources imports p).Succeeds id d := by
        rw [Relation.Succeeds, first]
        exact List.mem_cons_self
      obtain ⟨_, nextPending, dependsOn⟩ := (ended.succeeds_iff distinct).mp next
      exact ⟨d, nextPending, dependsOn, rfl⟩
    next none =>
      obtain ⟨d, nextPending, dependsOn⟩ := ended.exists_pending distinct isPending
      have next := (ended.succeeds_iff distinct).mpr ⟨isPending, nextPending, dependsOn⟩
      rw [Relation.Succeeds, none] at next
      cases next

omit distinct in
theorem IsEnd.hasCompiled (member : id ∈ p.layers.flatten) (succeeded : failed p.outcomes id = false) :
    (resultOf sources imports p).HasCompiled id := by
  obtain ⟨before, layer, after, split, inLayer⟩ := exists_split_of_mem_flatten member
  obtain ⟨_, c, _, outcome⟩ := ended.history.layered before layer after split id inLayer
  rw [failed, outcome] at succeeded
  rw [BatchResult.HasCompiled, find?_resultOf_of_not_pending (ended.history.of_mem_layers member), outcome]
  cases compiled : c.compile _ with
  | ok m => exact ⟨m, rfl⟩
  | error e =>
    rw [compiled] at succeeded
    cases succeeded

theorem IsEnd.fate (member : s ∈ sources) {c : Candidate} (built : s.build = .ok c) :
    Fate sources library imports previous (resultOf sources imports p) s.id c := by
  have isCandidate := (contains_candidatesOf distinct).mpr ⟨s, member, rfl, c, built⟩
  by_cases isPending : s.id ∈ p.pending
  · have stuck : ∀ e, stuckError (stuckIn sources imports p) (stuckIn sources imports p).cycles s.id = e →
        (resultOf sources imports p).outcomes.find? s.id = some (.error e) := by
      rintro _ rfl
      exact find?_resultOf_of_pending isPending
    rcases ended.stuckError_cases distinct isPending (stuckIn sources imports p).cycles with
      ⟨onCycle, cycle, error⟩ | ⟨offCycle, d, nextPending, dependsOn, error⟩
    · exact .cyclic onCycle ⟨cycle, stuck _ error⟩
    · exact .givenUp offCycle d dependsOn ⟨_, find?_resultOf_of_pending nextPending⟩ (stuck _ error)
  have offCycle : ¬ IsOnCycle sources imports s.id := mt (ended.cyclic s.id) isPending
  rcases ended.history.done s.id isCandidate isPending with inLayers | ⟨d, isDependency, isFailed, outcome⟩
  · obtain ⟨before, layer, after, split, inLayer⟩ := exists_split_of_mem_flatten inLayers
    obtain ⟨compiled, c', found, outcome⟩ := ended.history.layered before layer after split s.id inLayer
    obtain ⟨s', member', same, built'⟩ := (find?_candidatesOf distinct).mp found
    obtain rfl := List.inj_on_of_nodup_map distinct member' member same
    obtain rfl : c' = c := Except.ok.inj (built'.symm.trans built)
    have earlier : ∀ d ∈ before.flatten, d ∈ p.layers.flatten := fun d inside =>
      (flatten_eq_of_split split).symm ▸ List.mem_append_left _ inside
    refine .resolved offCycle before after layer split inLayer (fun d dependsOn => ?_) ?_
    · obtain ⟨inside, succeeded⟩ := compiled d ((dependsOn_iff distinct).mp dependsOn)
      exact ⟨inside, ended.hasCompiled (earlier d inside) succeeded⟩
    · rw [find?_resultOf_of_not_pending isPending, outcome, libraryWith_congr]
      exact fun d inside =>
        (find?_resultOf_of_not_pending (ended.history.of_mem_layers (earlier d inside))).symm
  · refine .givenUp offCycle d ((dependsOn_iff distinct).mpr isDependency) ?_ ?_
    · rw [BatchResult.HasFailed, find?_resultOf_of_not_pending (ended.history.not_pending_of_failed isFailed)]
      exact failed_iff.mp isFailed
    · exact (find?_resultOf_of_not_pending isPending).trans outcome

/-- Exactly the modules of the batch have an outcome. -/
theorem IsEnd.mem_keys_iff : id ∈ (resultOf sources imports p).outcomes.keys ↔
    id ∈ sources.map ModuleSource.id := by
  rw [← SortedMap.contains_iff, SortedMap.contains, Option.isSome_iff_exists]
  constructor
  · rintro ⟨o, found⟩
    cases isCandidate : (candidatesOf sources).contains id with
    | true =>
      obtain ⟨s, member, rfl, _⟩ := (contains_candidatesOf distinct).mp isCandidate
      exact List.mem_map_of_mem member
    | false =>
      have done : id ∉ p.pending := fun isPending => by
        rw [(ended.history.pending id isPending).1] at isCandidate
        cases isCandidate
      rw [find?_resultOf_of_not_pending done, ended.history.refused id isCandidate] at found
      obtain ⟨s, member, rfl, _⟩ := (find?_refusedOf distinct).mp found
      exact List.mem_map_of_mem member
  · intro member
    obtain ⟨s, inside, rfl⟩ := List.mem_map.mp member
    by_cases isPending : s.id ∈ p.pending
    · exact ⟨_, find?_resultOf_of_pending isPending⟩
    · rw [find?_resultOf_of_not_pending isPending]
      exact ended.exists_outcome distinct inside isPending

end

end Batch

theorem Candidate.compile_cases (c : Candidate) (s : Surroundings) :
    (∃ m, c.compile s = .ok m) ∨ ∃ errors, c.compile s = .error (.resolution c.module errors) := by
  rw [compile]
  cases c.resolve s with
  | ok m => exact .inl ⟨m, rfl⟩
  | error errors => exact .inr ⟨errors, rfl⟩

/-- What a batch makes of its modules. -/
structure IsScheduled (sources : List ModuleSource) (library : ModuleLibrary) (imports : ImportTable)
    (previous : Option Snapshot) (r : BatchResult) : Prop where
  /-- Each module has one outcome, and nothing else has any. -/
  entries : r.outcomes.keys.Perm (sources.map ModuleSource.id)
  refused : ∀ s ∈ sources, ∀ e, s.build = .error e → r.outcomes.find? s.id = some (.error e)
  cyclic : ∀ s ∈ sources, ∀ c, s.build = .ok c → (r.IsCyclic s.id ↔ IsOnCycle sources imports s.id)
  givenUp : ∀ s ∈ sources, ∀ c, s.build = .ok c → ¬ IsOnCycle sources imports s.id →
    ((∃ path, r.IsGivenUpFor s.id path) ↔ ∃ d, DependsOn sources imports s.id d ∧ r.HasFailed d)
  blamed : ∀ s ∈ sources, ∀ c, s.build = .ok c → ∀ path, r.IsGivenUpFor s.id path →
    ∃ d, DependsOn sources imports s.id d ∧ r.HasFailed d ∧ d.path = path
  /-- All others have a place in one layer, after the layers of what they depend on, against which
  they are resolved. -/
  resolved : ∀ s ∈ sources, ∀ c, s.build = .ok c → ¬ IsOnCycle sources imports s.id →
    (∀ d, DependsOn sources imports s.id d → ¬ r.HasFailed d) →
    ∃ before layer after, r.layers = before ++ layer :: after ∧
      s.id ∈ layer ∧ s.id ∉ before.flatten ∧ s.id ∉ after.flatten ∧
      (∀ d, DependsOn sources imports s.id d → d ∈ before.flatten ∧ r.HasCompiled d) ∧
      r.outcomes.find? s.id = some (c.compile
        ⟨libraryWith library r.outcomes before.flatten, imports, previous⟩)
  library : r.library = (r.compiled.map ResolvedModule.graph).foldl ModuleLibrary.insert library

section

variable {sources : List ModuleSource} {library : ModuleLibrary} {imports : ImportTable}
  {previous : Option Snapshot} {r : BatchResult} {id : ModuleId} {c : Candidate}

theorem BatchResult.HasCompiled.not_hasFailed (compiled : r.HasCompiled id) : ¬ r.HasFailed id := by
  rintro ⟨e, failed⟩
  obtain ⟨m, compiled⟩ := compiled
  rw [compiled] at failed
  cases failed

theorem Fate.isOnCycle_of_cyclicImport (fate : Fate sources library imports previous r id c) {module : Path}
    {cycle : List Path} (found : r.outcomes.find? id = some (.error (.cyclicImport module cycle))) :
    IsOnCycle sources imports id := by
  cases fate with
  | cyclic onCycle => exact onCycle
  | givenUp _ d _ _ outcome => cases outcome.symm.trans found
  | resolved _ before _ _ _ _ _ outcome =>
    have compiled := Option.some.inj (outcome.symm.trans found)
    rcases c.compile_cases _ with ⟨m, same⟩ | ⟨errors, same⟩ <;> cases same.symm.trans compiled

theorem Fate.isCyclic_iff (fate : Fate sources library imports previous r id c) :
    r.IsCyclic id ↔ IsOnCycle sources imports id := by
  constructor
  · rintro ⟨cycle, found⟩
    exact fate.isOnCycle_of_cyclicImport found
  · intro onCycle
    cases fate with
    | cyclic _ outcome => exact outcome
    | givenUp offCycle => exact absurd onCycle offCycle
    | resolved offCycle => exact absurd onCycle offCycle

theorem Fate.of_isGivenUpFor (fate : Fate sources library imports previous r id c) {path : Path}
    (givenUp : r.IsGivenUpFor id path) :
    ∃ d, DependsOn sources imports id d ∧ r.HasFailed d ∧ d.path = path := by
  cases fate with
  | cyclic _ outcome =>
    obtain ⟨cycle, found⟩ := outcome
    cases found.symm.trans givenUp
  | givenUp _ d dependsOn hasFailed outcome =>
    refine ⟨d, dependsOn, hasFailed, ?_⟩
    cases outcome.symm.trans givenUp
    rfl
  | resolved _ before _ _ _ _ _ outcome =>
    have compiled := Option.some.inj (outcome.symm.trans givenUp)
    rcases c.compile_cases _ with ⟨m, same⟩ | ⟨errors, same⟩ <;> cases same.symm.trans compiled

theorem Fate.exists_isGivenUpFor (fate : Fate sources library imports previous r id c)
    (offCycle : ¬ IsOnCycle sources imports id)
    (failed : ∃ d, DependsOn sources imports id d ∧ r.HasFailed d) : ∃ path, r.IsGivenUpFor id path := by
  cases fate with
  | cyclic onCycle => exact absurd onCycle offCycle
  | givenUp _ d _ _ outcome => exact ⟨d.path, outcome⟩
  | resolved _ _ _ _ _ _ compiled =>
    obtain ⟨d, dependsOn, hasFailed⟩ := failed
    exact absurd hasFailed (compiled d dependsOn).2.not_hasFailed

theorem BatchResult.mem_graphs_iff {g : ModuleGraph} : g ∈ r.compiled.map ResolvedModule.graph ↔
    ∃ id m, r.outcomes.find? id = some (.ok m) ∧ m.graph = g := by
  simp only [compiled, SortedMap.values, List.mem_map, List.mem_filterMap, SortedMap.find?_eq_some_iff,
    toOption_eq_some_iff]
  constructor
  · rintro ⟨m, ⟨_, ⟨e, inside, rfl⟩, same⟩, rfl⟩
    exact ⟨e.1, m, same ▸ inside, rfl⟩
  · rintro ⟨id, m, inside, rfl⟩
    exact ⟨m, ⟨_, ⟨_, inside, rfl⟩, rfl⟩, rfl⟩

/-- The graphs of the modules that compiled are of different modules, if each is of its own. -/
theorem BatchResult.nodup_graphs
    (ofId : ∀ id m, r.outcomes.find? id = some (.ok m) → m.graph.id = id) :
    ((r.compiled.map ResolvedModule.graph).map ModuleGraph.id).Nodup := by
  rw [compiled, SortedMap.values, List.filterMap_map, List.map_map]
  refine List.Nodup.sublist (sublist_filterMap ?_) r.outcomes.nodup_keys
  rintro ⟨id, o⟩ inside m same
  obtain rfl := toOption_eq_some_iff.mp same
  exact ofId id m (SortedMap.find?_eq_some_iff.mpr inside)

variable (distinct : (sources.map ModuleSource.id).Nodup)
include distinct

/-- The library of a batch does not depend on the order in which the modules were compiled. -/
theorem compileBatch_library_eq : (compileBatch sources library imports previous).library =
    ((compileBatch sources library imports previous).compiled.map ResolvedModule.graph).foldl
      ModuleLibrary.insert library := by
  have ofId : ∀ id m, (compileBatch sources library imports previous).outcomes.find? id = some (.ok m) →
      m.graph.id = id := fun _ _ => compileBatch_graph distinct
  have layered : (((compileBatch sources library imports previous).layers.flatten.filterMap
      (graphOf? (compileBatch sources library imports previous).outcomes)).map ModuleGraph.id).Nodup := by
    refine List.Nodup.sublist (sublist_filterMap (h := id) ?_) ?_
    · intro id _ g held
      obtain ⟨m, found, rfl⟩ := graphOf?_eq_some_iff.mp held
      exact ofId id m found
    · exact (List.map_id _).symm ▸ compileBatch_layers_nodup distinct
  rw [compileBatch_library distinct, libraryWith]
  refine ModuleLibrary.foldl_insert_perm ?_ layered library
  refine (List.perm_ext_iff_of_nodup (layered.of_map _)
    ((BatchResult.nodup_graphs ofId).of_map _)).mpr fun g => ?_
  simp only [BatchResult.mem_graphs_iff, List.mem_filterMap, graphOf?_eq_some_iff]
  constructor
  · rintro ⟨id, _, m, found, same⟩
    exact ⟨id, m, found, same⟩
  · rintro ⟨id, m, found, same⟩
    obtain ⟨before, layer, after, split, member, _⟩ := compileBatch_compiled distinct found
    have inLayers : id ∈ (compileBatch sources library imports previous).layers.flatten :=
      (flatten_eq_of_split split).symm ▸ List.mem_append_right _ (List.mem_append_left _ member)
    exact ⟨id, inLayers, m, found, same⟩

theorem compileBatch_fate {s : ModuleSource} (member : s ∈ sources) (built : s.build = .ok c) :
    Fate sources library imports previous (compileBatch sources library imports previous) s.id c :=
  (isEnd_lastProgress distinct).fate distinct member built

/-- A batch is scheduled by its dependencies, whatever fails in it. -/
theorem compileBatch_isScheduled :
    IsScheduled sources library imports previous (compileBatch sources library imports previous) := by
  have ended : IsEnd sources library imports previous (lastProgress sources library imports previous) :=
    isEnd_lastProgress distinct
  have fate : ∀ s ∈ sources, ∀ c, s.build = .ok c → Fate sources library imports previous
      (compileBatch sources library imports previous) s.id c :=
    fun s member c built => compileBatch_fate distinct member built
  constructor
  case entries =>
    exact (List.perm_ext_iff_of_nodup (SortedMap.nodup_keys _) distinct).mpr fun _ =>
      ended.mem_keys_iff distinct
  case refused =>
    intro s member e refused
    obtain ⟨done, outcome⟩ := ended.of_refused distinct member refused
    exact (find?_resultOf_of_not_pending done).trans outcome
  case cyclic =>
    exact fun s member c built => (fate s member c built).isCyclic_iff
  case givenUp =>
    intro s member c built offCycle
    constructor
    · rintro ⟨path, givenUp⟩
      obtain ⟨d, dependsOn, hasFailed, _⟩ := (fate s member c built).of_isGivenUpFor givenUp
      exact ⟨d, dependsOn, hasFailed⟩
    · exact (fate s member c built).exists_isGivenUpFor offCycle
  case blamed =>
    exact fun s member c built _ => (fate s member c built).of_isGivenUpFor
  case resolved =>
    intro s member c built offCycle noneFailed
    cases fate s member c built with
    | cyclic onCycle => exact absurd onCycle offCycle
    | givenUp _ d dependsOn hasFailed => exact absurd hasFailed (noneFailed d dependsOn)
    | resolved _ before after layer split inLayer compiled outcome =>
      have once : (compileBatch sources library imports previous).layers.flatten.Nodup :=
        compileBatch_layers_nodup distinct
      rw [flatten_eq_of_split split, List.nodup_append', List.disjoint_append_right,
        List.nodup_append'] at once
      obtain ⟨_, ⟨_, _, notLater⟩, notEarlier, _⟩ := once
      exact ⟨before, layer, after, split, inLayer, fun earlier => notEarlier earlier inLayer,
        notLater inLayer, compiled, outcome⟩
  case library => exact compileBatch_library_eq distinct

end

/-- Two modules that expand a node of each other, one that expands a node of the first, one that refers
to nothing and one that cannot be read. -/
def tangledSources : List ModuleSource := [
  ⟨.single "a", .plain 1 0 0, "deduc P of b.P \x7b\x7d"⟩,
  ⟨.single "b", .plain 1 0 0, "deduc P of a.P \x7b\x7d"⟩,
  ⟨.single "c", .plain 1 0 0, "deduc P of a.P \x7b\x7d"⟩,
  outerSource,
  ⟨.single "u", .plain 1 0 0, "deduc"⟩]

theorem compileBatch_isScheduled_tangledSources :
    IsScheduled tangledSources {} {} none (compileBatch tangledSources {} {} none) ∧
    IsOnCycle tangledSources {} ⟨.single "a", .plain 1 0 0⟩ ∧
    (∃ d, DependsOn tangledSources {} ⟨.single "c", .plain 1 0 0⟩ d ∧
      (compileBatch tangledSources {} {} none).HasFailed d) ∧
    (compileBatch tangledSources {} {} none).layers = [[outerSource.id]] := by
  have scheduled : IsScheduled tangledSources {} {} none (compileBatch tangledSources {} {} none) :=
    compileBatch_isScheduled (by decide)
  have isBuilt : ∀ s ∈ tangledSources.take 4, ∃ c, s.build = .ok c := by
    intro s member
    have isBuilt : (tangledSources.take 4).all (fun s => s.build.toOption.isSome) = true := by
      decide +kernel
    obtain ⟨c, built⟩ := Option.isSome_iff_exists.mp (List.all_eq_true.mp isBuilt s member)
    exact ⟨c, toOption_eq_some_iff.mp built⟩
  refine ⟨scheduled, ?_, ?_, by decide +kernel⟩
  · obtain ⟨c, built⟩ := isBuilt tangledSources[0] (by decide)
    exact (scheduled.cyclic _ (by decide) c built).mp
      ⟨[.single "a", .single "b", .single "a"], by decide +kernel⟩
  · obtain ⟨c, built⟩ := isBuilt tangledSources[2] (by decide)
    have givenUp : (compileBatch tangledSources {} {} none).outcomes.find? ⟨.single "c", .plain 1 0 0⟩ =
      some (.error (.dependencyFailed (.single "c") (.single "a"))) := by decide +kernel
    obtain ⟨d, dependsOn, hasFailed, _⟩ := scheduled.blamed _ (by decide) c built _ givenUp
    exact ⟨d, dependsOn, hasFailed⟩

end Deductions
