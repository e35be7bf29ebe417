import Deductions.Proofs.Schedule
import Deductions.Proofs.Settled
import Deductions.Proofs.Snapshot.Origin

namespace Deductions

open Batch Resolution

/-- Why a name does not find a path in the module that has it: the name means this path in its own module
only, it does not wait for the other module, or it asks for another version. -/
inductive IsHidden (c : Candidate) (imports : ImportTable) (batch : List ModuleId) (library : ModuleLibrary)
    (name : Path) (place : Place) (id : ModuleId) : Prop
  | elsewhere (ownOnly : place.reach = .module)
  | unawaited (overlooked : IsOverlooked c imports batch name place.path id)
  | pinned {pin : Version} (reach : place.reach = .anywhere (some pin)) (other : pin ≠ id.version)
  | superseded {version : Version} {g : ModuleGraph} (reach : place.reach = .anywhere none)
      (held : library.get? ⟨id.path, version⟩ = some g) (higher : id.version < version)

/-- A name of the source is lost at the path of the target when its module is resolved, but another module of the
batch has this path, and is hidden from the name at each place with the path. -/
def IsHiddenFrom (sources : List ModuleSource) (library : ModuleLibrary) (imports : ImportTable)
    (previous : Option Snapshot) (source target : NodeRef) : Prop :=
  ∃ m s c before, IsCompilation sources library imports previous m s c before ∧
    ∃ n ∈ c.graph.walk.getD [], n.ref = source ∧ ∃ scope name, Mentions c.references n scope name ∧
    lookup c.graph (surroundingsAfter sources library imports previous before) (c.imports.mergedWith imports)
      scope name = .ghost target ∧
    ∃ id m', (compileBatch sources library imports previous).outcomes.find? id = some (.ok m') ∧
      m'.graph.contains target.path = true ∧ id.path ≠ s.path ∧
      ∀ place ∈ places c.module (c.imports.mergedWith imports) scope name, place.path = target.path →
        IsHidden c imports (idsOf sources) library name place id

/-- No ghost edge leads to a node of the snapshot. -/
def Snapshot.GhostsAreGone (S : Snapshot) : Prop :=
  ∀ source target role, .ghost source target role ∈ S.edges → S.contains target.path = false

theorem Resolution.not_contains_of_node?_eq_none {graph : ModuleGraph} {library : ModuleLibrary} {place : Place}
    (none : Place.node? graph library place = none) : ¬ graph.contains place.path = true := by
  intro own
  obtain ⟨n, found⟩ := ModuleGraph.contains_iff.mp own
  obtain ⟨path, reach⟩ := place
  have found : graph.node? path = some n := found
  cases reach with
  | module => cases found.symm.trans none
  | anywhere pin =>
    have none : find? graph library path pin = Option.none := none
    rw [find?, found] at none
    cases none

/-- A path that is not found is owned by no other module. -/
theorem Resolution.module_of_find?_eq_none {graph g : ModuleGraph} {library : ModuleLibrary} {path : Path}
    {pin : Option Version} (none : find? graph library path pin = none) (owner : library.owner path pin = some g) :
    g.module = graph.module := by
  rw [find?, owner] at none
  split at none
  · cases none
  · dsimp only at none
    split at none
    next own => exact own
    · have has : g.contains path = true := ModuleLibrary.contains_of_owner owner
      obtain ⟨n, found⟩ := ModuleGraph.contains_iff.mp has
      cases found.symm.trans none

/-- A library that has a path at the version which a name asks for shows it to the modules that do not lie in
the one with the path. -/
theorem Resolution.find?_ne_none {graph g : ModuleGraph} {library : ModuleLibrary} {path outer : Path}
    {pin : Option Version} (keyed : library.IsKeyed) (selected : library.select outer pin = some g)
    (around : outer ∈ ModuleLibrary.outerPaths path) (has : g.contains path = true)
    (apart : graph.module.startsWith outer = false) : find? graph library path pin ≠ none := by
  intro none
  obtain ⟨inner, around', longer, g', selected', _, owner⟩ := ModuleLibrary.owner_of_select around selected has
  obtain ⟨version, held⟩ := ModuleLibrary.get?_of_select selected'
  have isInner : g'.module = inner := congrArg ModuleId.path (keyed _ _ held)
  have own := module_of_find?_eq_none none owner
  -- the module of the name would be the longer one of two around the path
  obtain ⟨begins, _⟩ := ModuleLibrary.mem_outerPaths around
  obtain ⟨begins', _⟩ := ModuleLibrary.mem_outerPaths around'
  rw [← own, isInner] at apart
  rcases Path.startsWith_total begins' begins with inside | inside
  · rw [apart] at inside
    cases inside
  · have same : inner.length = outer.length := Nat.le_antisymm (Path.length_le_of_startsWith inside) longer
    rw [Path.eq_of_startsWith_of_length begins' begins same, Path.startsWith_refl] at apart
    cases apart

theorem get?_libraryWith {start : ModuleLibrary} {outcomes : SortedMap ModuleId Outcome} {ids : List ModuleId}
    (keyed : ∀ id m, outcomes.find? id = some (.ok m) → m.graph.id = id) {id : ModuleId} {m : ResolvedModule}
    (member : id ∈ ids) (found : outcomes.find? id = some (.ok m)) :
    (libraryWith start outcomes ids).get? id = some m.graph := by
  have unique : ∀ g ∈ ids.filterMap (graphOf? outcomes), g.id = m.graph.id → g = m.graph := by
    intro g inside same
    obtain ⟨id', _, compiled⟩ := List.mem_filterMap.mp inside
    obtain ⟨m', found', rfl⟩ := graphOf?_eq_some_iff.mp compiled
    rw [keyed id' m' found', keyed id m found] at same
    subst same
    cases found.symm.trans found'
    rfl
  rw [← keyed id m found]
  exact ModuleLibrary.get?_foldl_insert_of_unique unique
    (List.mem_filterMap.mpr ⟨id, member, graphOf?_eq_some_iff.mpr ⟨m, found, rfl⟩⟩)

section

variable {sources : List ModuleSource} {library : ModuleLibrary} {imports : ImportTable}
  {previous : Option Snapshot} {label : String} {version : Version} {S : Snapshot}
  (assembled : assemble label version (compileBatch sources library imports previous).compiled = .ok S)
include assembled

/-- Of one module the snapshot has no two versions. -/
theorem graph_eq_of_path {id id' : ModuleId} {m m' : ResolvedModule}
    (found : (compileBatch sources library imports previous).outcomes.find? id = some (.ok m))
    (found' : (compileBatch sources library imports previous).outcomes.find? id' = some (.ok m'))
    (same : id'.path = id.path) : m'.graph = m.graph := by
  have inBatch := List.mem_map_of_mem (f := ResolvedModule.addition) (BatchResult.mem_compiled.mpr ⟨id, found⟩)
  have inBatch' := List.mem_map_of_mem (f := ResolvedModule.addition) (BatchResult.mem_compiled.mpr ⟨id', found'⟩)
  have module : m.graph.module = id.path := congrArg ModuleId.path (id_of_compiled found)
  have module' : m'.graph.module = id'.path := congrArg ModuleId.path (id_of_compiled found')
  have sameModule : m'.graph.module = m.graph.module := by rw [module, module', same]
  exact congrArg Addition.graph ((isMadeOf_of_assemble assembled).eq_of_module inBatch' inBatch sameModule)

/-- A version of a module that takes precedence over that of the batch is one of the library at the start. -/
theorem held_of_higher {before : List ModuleId} {id : ModuleId} {m : ResolvedModule} {higher : Version}
    {g : ModuleGraph} (found : (compileBatch sources library imports previous).outcomes.find? id = some (.ok m))
    (held : (surroundingsAfter sources library imports previous before).library.get? ⟨id.path, higher⟩ = some g)
    (greater : id.version < higher) : library.get? ⟨id.path, higher⟩ = some g := by
  refine (ModuleLibrary.get?_foldl_insert_cases held).resolve_right fun ⟨member, own⟩ => ?_
  obtain ⟨id', _, compiled⟩ := List.mem_filterMap.mp member
  obtain ⟨m', found', rfl⟩ := graphOf?_eq_some_iff.mp compiled
  have sameId : id' = ⟨id.path, higher⟩ := (id_of_compiled found').symm.trans own
  have samePath : id'.path = id.path := by rw [sameId]
  rw [graph_eq_of_path assembled found found' samePath, id_of_compiled found] at own
  exact ne_of_compare_lt greater (congrArg ModuleId.version own)

/-- A name that does not find the path of a module of the batch has it hidden from it. -/
theorem isHidden_of_not_found (keyed : library.IsKeyed) {m m' : ResolvedModule} {s : ModuleSource} {c : Candidate}
    {before : List ModuleId} (compilation : IsCompilation sources library imports previous m s c before)
    {n : Node} {scope name : Path} {place : Place} (inside : n ∈ c.graph.walk.getD [])
    (mentions : Mentions c.references n scope name)
    (isPlace : place ∈ places c.module (c.imports.mergedWith imports) scope name)
    (none : Place.node? c.graph (surroundingsAfter sources library imports previous before).library place = none)
    {id : ModuleId} (found : (compileBatch sources library imports previous).outcomes.find? id = some (.ok m'))
    (has : m'.graph.contains place.path = true) : IsHidden c imports (idsOf sources) library name place id := by
  obtain ⟨path, reach⟩ := place
  cases reach with
  | module => exact .elsewhere rfl
  | anywhere pin =>
    have isModule : m'.graph.module = id.path := congrArg ModuleId.path (id_of_compiled found)
    have within := (isForest_of_compiled (BatchResult.mem_compiled.mpr ⟨id, found⟩)).within path has
    rw [isModule] at within
    obtain ⟨begins, shorter⟩ := Path.isSome_strip?_iff.mp within
    have around : id.path ∈ ModuleLibrary.outerPaths path := ModuleLibrary.mem_outerPaths_iff.mpr ⟨begins, shorter⟩
    by_cases awaited : id ∈ dependencies c imports (idsOf sources)
    case neg =>
      obtain ⟨s', inBatch, same, _⟩ := compileBatch_recorded found
      exact .unawaited (isOverlooked_of_not_mem (mem_idsOf.mpr ⟨s', inBatch, same⟩) awaited
        (mem_externalNames inside mentions) (path_of_mem_outerPlaces (mem_outerPlaces isPlace nofun)) begins)
    -- the module was in the library already, where only another version of it can come before it
    have apart : c.module.startsWith id.path = false := (mem_dependencies.mp awaited).2.1.2
    have held : (surroundingsAfter sources library imports previous before).library.get? id = some m'.graph :=
      get?_libraryWith (fun _ _ => id_of_compiled) (compilation.awaited id awaited) found
    have shown : (surroundingsAfter sources library imports previous before).library.select id.path pin ≠
        some m'.graph := fun selected =>
      find?_ne_none (keyed.foldl_insert _) selected around has apart none
    cases pin with
    | some pin =>
      refine .pinned rfl fun same => shown ?_
      rw [same]
      exact held
    | none =>
      obtain ⟨g, selected⟩ := ModuleLibrary.exists_select held
      obtain ⟨highest, heldHighest, greatest⟩ := ModuleLibrary.highest_of_select selected
      rcases greatest id.version m'.graph held with rfl | less
      · cases held.symm.trans heldHighest
        exact absurd selected shown
      · exact .superseded rfl (held_of_higher assembled found heldHighest less) less

/-- A name that was lost when its module was resolved makes a ghost edge of the snapshot. -/
theorem exists_ghost_of_assemble {m : ResolvedModule} {s : ModuleSource} {c : Candidate} {before : List ModuleId}
    (compilation : IsCompilation sources library imports previous m s c before) {n : Node}
    (inside : n ∈ c.graph.walk.getD []) {target : NodeRef}
    (loses : Loses c.graph (surroundingsAfter sources library imports previous before)
      (c.imports.mergedWith imports) c.references n target) : ∃ role, .ghost n.ref target role ∈ S.edges := by
  obtain ⟨role, made⟩ := exists_ghost_of_loses loses
  obtain ⟨_, _, build⟩ := s.build_eq_ok compilation.built
  have stored := (Candidate.settlesTo build compilation.resolved).mem_edges.mpr ⟨n, inside, made⟩
  rw [(isMadeOf_of_assemble assembled).edges]
  exact ⟨role, List.mem_flatMap.mpr ⟨m.addition, List.mem_map_of_mem compilation.mem_compiled, stored⟩⟩

/-- A ghost edge leads to a node of the snapshot just where the module that has the node is hidden from a name
which the edge was made for. -/
theorem isHiddenFrom_iff (keyed : library.IsKeyed) {source target : NodeRef} :
    IsHiddenFrom sources library imports previous source target ↔
      (∃ role, .ghost source target role ∈ S.edges) ∧ S.contains target.path = true := by
  have madeOf := isMadeOf_of_assemble assembled
  constructor
  · rintro ⟨m, s, c, before, compilation, n, inside, rfl, scope, name, mentions, lost, id, m', found, has, _⟩
    refine ⟨exists_ghost_of_assemble assembled compilation inside ⟨scope, name, mentions, lost⟩, ?_⟩
    exact madeOf.contains_iff.mpr ⟨_, List.mem_map_of_mem (BatchResult.mem_compiled.mpr ⟨id, found⟩), has⟩
  · rintro ⟨⟨role, isGhost⟩, there⟩
    obtain ⟨m, s, c, before, compilation, n, inside, isLink⟩ := exists_link_of_assemble assembled isGhost
    obtain ⟨a, member, has⟩ := madeOf.contains_iff.mp there
    obtain ⟨m', compiled, rfl⟩ := List.mem_map.mp member
    have has : m'.graph.contains target.path = true := has
    obtain ⟨id, found⟩ := BatchResult.mem_compiled.mp compiled
    cases isLink with
    | ghost loses =>
      obtain ⟨scope, name, mentions, lost⟩ := loses
      obtain ⟨none, atTarget, isPlace, same⟩ := exists_place_of_ghost lost
      have other : id.path ≠ s.path := by
        intro own
        rw [graph_eq_of_path assembled compilation.compiled found own, compilation.graph, ← same] at has
        exact not_contains_of_node?_eq_none (none atTarget isPlace) has
      refine ⟨m, s, c, before, compilation, n, inside, rfl, scope, name, mentions, lost, id, m', found, has, other,
        fun place isPlace same => ?_⟩
      have has : m'.graph.contains place.path = true := same ▸ has
      exact isHidden_of_not_found assembled keyed compilation inside mentions isPlace (none place isPlace) found has
    | link noGhost => cases noGhost

/-- Ghosts lead to what is gone unless a module of the batch that has it is hidden from a name. -/
theorem assemble_ghostsAreGone_iff (keyed : library.IsKeyed) :
    S.GhostsAreGone ↔ ∀ source target, ¬ IsHiddenFrom sources library imports previous source target := by
  constructor
  · intro gone source target hidden
    obtain ⟨⟨role, isGhost⟩, there⟩ := (isHiddenFrom_iff assembled keyed).mp hidden
    cases there.symm.trans (gone source target role isGhost)
  · intro none source target role isGhost
    refine Bool.eq_false_iff.mpr fun there => none source target ?_
    exact (isHiddenFrom_iff assembled keyed).mpr ⟨⟨role, isGhost⟩, there⟩

end

/-- The module with an assertion, and the one inside it that expands the assertion, at a later version. -/
def laterSources : List ModuleSource :=
  [outerSource, innerSource].map fun s => { s with version := .plain 2 0 0 }

/-- The first by itself, and then the batch of the two after it. -/
def collectLater : Option (Snapshot × Snapshot) := do
  let first ← (assemble "lib" outerSource.version (compileBatch [outerSource] {} {} none).compiled).toOption
  let s ← (assemble "lib" (.plain 2 0 0) (compileBatch laterSources {} {} (some first)).compiled).toOption
  return (first, s)

theorem collectLater_eq_some {first S : Snapshot} (collected : collectLater = some (first, S)) :
    assemble "lib" outerSource.version (compileBatch [outerSource] {} {} none).compiled = .ok first ∧
      assemble "lib" (.plain 2 0 0) (compileBatch laterSources {} {} (some first)).compiled = .ok S := by
  simp only [collectLater, bind, Option.bind_eq_some_iff, pure, Option.some.injEq, Prod.mk.injEq,
    toOption_eq_some_iff] at collected
  obtain ⟨first, compiled, s, assembled, rfl, rfl⟩ := collected
  exact ⟨compiled, assembled⟩

/-- The expansion of the inner module, and the assertion as it was. -/
def lostEnds : NodeRef × NodeRef :=
  (⟨innerSource.path.child "D", .plain 2 0 0⟩, ⟨(outerSource.path.child "T").child "C", outerSource.version⟩)

/-- The inner module takes the assertion in the outer one for lost. -/
theorem exists_collectLater : ∃ first S, collectLater = some (first, S) ∧
    (compileBatch laterSources {} {} (some first)).succeeded = true ∧ ¬ S.GhostsAreGone := by
  have collects : collectLater.any (fun (first, S) =>
      (compileBatch laterSources {} {} (some first)).succeeded &&
        S.edges.contains (.ghost lostEnds.1 lostEnds.2 .expansion) && S.contains lostEnds.2.path) = true := by
    decide +kernel
  obtain ⟨⟨first, S⟩, collected, haunted⟩ := Option.any_eq_true _ _ |>.mp collects
  rw [Bool.and_eq_true, Bool.and_eq_true, List.contains_iff_mem] at haunted
  obtain ⟨⟨succeeded, isGhost⟩, there⟩ := haunted
  refine ⟨first, S, collected, succeeded, fun gone => ?_⟩
  cases there.symm.trans (gone _ _ _ isGhost)

theorem assemble_ghostsAreGone_iff_laterSources : ∃ first S,
    assemble "lib" outerSource.version (compileBatch [outerSource] {} {} none).compiled = .ok first ∧
    assemble "lib" (.plain 2 0 0) (compileBatch laterSources {} {} (some first)).compiled = .ok S ∧
    ModuleLibrary.IsKeyed {} ∧ ¬ S.GhostsAreGone ∧
    ¬ ∀ source target, ¬ IsHiddenFrom laterSources {} {} (some first) source target := by
  obtain ⟨first, S, collected, _, haunted⟩ := exists_collectLater
  obtain ⟨previous, assembled⟩ := collectLater_eq_some collected
  exact ⟨first, S, previous, assembled, ModuleLibrary.isKeyed_empty, haunted,
    (assemble_ghostsAreGone_iff assembled ModuleLibrary.isKeyed_empty).not.mp haunted⟩

/-- The inner module does not wait for the one around it, so a ghost edge leads to a node of the snapshot. -/
theorem laterSources_haunted : ∃ first S,
    assemble "lib" outerSource.version (compileBatch [outerSource] {} {} none).compiled = .ok first ∧
    (compileBatch laterSources {} {} (some first)).succeeded = true ∧
    assemble "lib" (.plain 2 0 0) (compileBatch laterSources {} {} (some first)).compiled = .ok S ∧
    ¬ S.GhostsAreGone := by
  obtain ⟨first, S, collected, succeeded, haunted⟩ := exists_collectLater
  obtain ⟨previous, assembled⟩ := collectLater_eq_some collected
  exact ⟨first, S, previous, succeeded, assembled, haunted⟩

end Deductions
