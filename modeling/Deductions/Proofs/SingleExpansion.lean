import Deductions.Proofs.Claims
import Deductions.Proofs.Compiled

namespace Deductions

open Batch Resolution

/-- What the expansions of a graph are by themselves: top-level declarations of the module make them,
each at most one, and no two of them have a target in common. -/
structure ModuleGraph.ExpandsSingly (g : ModuleGraph) : Prop where
  sources : ∀ e ∈ g.expansions, ∃ name, e.source.path = g.module.child name
  distinct : g.expansionSources.Nodup
  targets : ∀ e ∈ g.expansions, ∀ e' ∈ g.expansions, ∀ t ∈ e.targets, ∀ t' ∈ e'.targets,
    t.path = t'.path → e.source.path = e'.source.path

/-- The expansions of a module are those that its resolution found. -/
theorem ModuleSource.expansions_eq {s : ModuleSource} {c : Candidate} (built : s.build = .ok c)
    {surroundings : Surroundings} {m : ResolvedModule} (resolved : c.resolve surroundings = .ok m) :
    m.graph.expansions = (findings c surroundings).edges.filter Edge.isExpansion := by
  obtain ⟨_, _, build⟩ := s.build_eq_ok built
  obtain ⟨_, _, noEdges⟩ := Candidate.frame_of_build build
  obtain ⟨_, graph, _⟩ := Candidate.resolve_eq_ok resolved
  rw [graph, noEdges]
  rfl

/-- A module that resolves expands singly, and nothing that another module of its version in the
library expands. -/
theorem ModuleSource.expandsSingly {s : ModuleSource} {c : Candidate} (built : s.build = .ok c)
    {surroundings : Surroundings} {m : ResolvedModule} (resolved : c.resolve surroundings = .ok m) :
    m.graph.ExpandsSingly ∧ ∀ e ∈ m.graph.expansions, ∀ t ∈ e.targets,
      surroundings.library.expanderOf t.path s.version s.path = none := by
  obtain ⟨source, wellFormed, build⟩ := s.build_eq_ok built
  obtain ⟨module, version, noEdges⟩ := Candidate.frame_of_build build
  obtain ⟨noErrors, graph, distinct⟩ := Candidate.resolve_eq_ok resolved
  have sameModule : m.graph.module = c.module := by
    rw [graph]
    rfl
  have expansions := ModuleSource.expansions_eq built resolved
  have none : c.graph.expansionSources = [] := by
    rw [ModuleGraph.expansionSources, ModuleGraph.expansions, noEdges]
    rfl
  have claimed : ∀ e ∈ m.graph.expansions, _ := fun e member =>
    hasClaimed_findings c surroundings noErrors e (expansions ▸ member)
  refine ⟨⟨fun e member => ?_, distinct (none ▸ .nil), ?_⟩, fun e member t atEnd => ?_⟩
  · obtain ⟨⟨r, inside, isOf, same⟩, _⟩ := claimed e member
    obtain ⟨name, child⟩ := Candidate.source_of_build wellFormed build r inside isOf
    exact ⟨name, by rw [← same, child, sameModule]⟩
  · intro e member e' member' t atEnd t' atEnd' same
    have owner := ((claimed e member).2 t atEnd).1
    have owner' := ((claimed e' member').2 t' atEnd').1
    rw [same, owner'] at owner
    exact (Option.some.inj owner).symm
  · have free := ((claimed e member).2 t atEnd).2
    rw [← module, ← version]
    exact free

def ModuleGraph.expandedPaths (g : ModuleGraph) : List Path :=
  g.expansions.flatMap fun e => e.targets.map NodeRef.path

theorem ModuleGraph.mem_expandedPaths {g : ModuleGraph} {path : Path} :
    path ∈ g.expandedPaths ↔ ∃ e ∈ g.expansions, ∃ t ∈ e.targets, t.path = path := by
  simp [expandedPaths]

/-- No path is the source of two of the expansions, and none a target of expansions from different
sources. -/
structure AreSingle (edges : List Edge) : Prop where
  sources : ((edges.filter Edge.isExpansion).map fun e => e.source.path).Nodup
  targets : ∀ e ∈ edges.filter Edge.isExpansion, ∀ e' ∈ edges.filter Edge.isExpansion,
    ∀ t ∈ e.targets, ∀ t' ∈ e'.targets, t.path = t'.path → e.source.path = e'.source.path

namespace BatchResult

/-- The edges of all modules that compiled. -/
def edges (r : BatchResult) : List Edge := r.compiled.flatMap fun m => m.graph.edges

/-- No two modules of the layer expand the same node. -/
def IsUncontested (r : BatchResult) (layer : List ModuleId) : Prop :=
  ∀ id ∈ layer, ∀ id' ∈ layer, id ≠ id' → ∀ m m', r.outcomes.find? id = some (.ok m) →
    r.outcomes.find? id' = some (.ok m') → ∀ path ∈ m.graph.expandedPaths, path ∉ m'.graph.expandedPaths

theorem mem_expansions {r : BatchResult} {e : Edge} : e ∈ r.edges.filter Edge.isExpansion ↔
    ∃ id m, r.outcomes.find? id = some (.ok m) ∧ e ∈ m.graph.expansions := by
  simp only [edges, ModuleGraph.expansions, List.mem_filter, List.mem_flatMap, mem_compiled]
  constructor
  · rintro ⟨⟨m, ⟨id, found⟩, member⟩, isExpansion⟩
    exact ⟨id, m, found, member, isExpansion⟩
  · rintro ⟨id, m, found, member, isExpansion⟩
    exact ⟨⟨m, ⟨id, found⟩, member⟩, isExpansion⟩

end BatchResult

theorem append_cons_cases {α : Type} {before after before' after' : List α} {a a' : α}
    (split : before ++ a :: after = before' ++ a' :: after') : a ∈ before' ∨ a' ∈ before ∨ a = a' := by
  rcases List.append_eq_append_iff.mp split with ⟨between, rfl, rest⟩ | ⟨between, rfl, rest⟩
  · cases between with
    | nil => exact .inr (.inr (List.cons.inj rest).1)
    | cons b between =>
      obtain ⟨rfl, _⟩ := List.cons.inj rest
      exact .inl (List.mem_append_right _ List.mem_cons_self)
  · cases between with
    | nil => exact .inr (.inr (List.cons.inj rest).1.symm)
    | cons b between =>
      obtain ⟨rfl, _⟩ := List.cons.inj rest
      exact .inr (.inl (List.mem_append_right _ List.mem_cons_self))

section

variable {sources : List ModuleSource} {library : ModuleLibrary} {imports : ImportTable}
  {previous : Option Snapshot}

section

variable (distinct : (sources.map ModuleSource.id).Nodup)
include distinct

theorem compileBatch_expandsSingly {id : ModuleId} {m : ResolvedModule}
    (found : (compileBatch sources library imports previous).outcomes.find? id = some (.ok m)) :
    m.graph.ExpandsSingly := by
  obtain ⟨_, _, _, _, _, _, _, _, _, built, resolved⟩ := compileBatch_compiled distinct found
  exact (ModuleSource.expandsSingly built resolved).1

theorem nodup_ids_graphs {ids : List ModuleId} (nodup : ids.Nodup) :
    ((ids.filterMap (graphOf? (compileBatch sources library imports previous).outcomes)).map
      ModuleGraph.id).Nodup := by
  rw [← List.map_id ids] at nodup
  refine List.Nodup.sublist (sublist_filterMap fun id _ g compiled => ?_) nodup
  obtain ⟨m, found, rfl⟩ := graphOf?_eq_some_iff.mp compiled
  exact compileBatch_graph distinct found

/-- A module expands nothing that a module of an earlier layer and the same version expands. -/
theorem compileBatch_uncontested_earlier {before after : List (List ModuleId)} {layer : List ModuleId}
    (split : (compileBatch sources library imports previous).layers = before ++ layer :: after)
    {id id' : ModuleId} (later : id ∈ layer) (earlier : id' ∈ before.flatten)
    (version : id'.version = id.version) (other : id'.path ≠ id.path) {m m' : ResolvedModule}
    (found : (compileBatch sources library imports previous).outcomes.find? id = some (.ok m))
    (found' : (compileBatch sources library imports previous).outcomes.find? id' = some (.ok m'))
    {path : Path} (expands : path ∈ m.graph.expandedPaths) : path ∉ m'.graph.expandedPaths := by
  intro expands'
  obtain ⟨s, _, rfl, c, built, _, outcome⟩ := compileBatch_layered distinct split later
  have resolved := Candidate.compile_eq_ok.mp (Option.some.inj (outcome.symm.trans found))
  have sameId := compileBatch_graph distinct found'
  have nodup : before.flatten.Nodup := by
    have all : (compileBatch sources library imports previous).layers.flatten.Nodup :=
      compileBatch_layers_nodup distinct
    rw [flatten_eq_of_split split] at all
    exact (List.nodup_append.mp all).1
  -- the library that the later module is resolved against still has the graph of the earlier one
  have held := ModuleLibrary.get?_foldl_insert (l := library) (nodup_ids_graphs distinct nodup)
    (List.mem_filterMap.mpr ⟨id', earlier, graphOf?_eq_some_iff.mpr ⟨m', found', rfl⟩⟩)
  obtain ⟨e, member, t, atEnd, rfl⟩ := ModuleGraph.mem_expandedPaths.mp expands
  obtain ⟨e', member', reaches⟩ := ModuleGraph.mem_expandedPaths.mp expands'
  obtain ⟨member', isExpansion⟩ := List.mem_filter.mp member'
  have otherModule : m'.graph.module ≠ s.path := by
    rw [← sameId] at other
    exact other
  have sameVersion : m'.graph.version = s.version := by
    rw [← sameId] at version
    exact version
  have seen := ModuleLibrary.expanderOf_ne_none held otherModule member' isExpansion reaches
  rw [sameVersion] at seen
  exact seen ((ModuleSource.expandsSingly built resolved).2 e member t atEnd)

theorem compileBatch_nodup_compiled :
    ((compileBatch sources library imports previous).compiled.map fun m => m.graph.id).Nodup := by
  rw [BatchResult.compiled, SortedMap.values, List.filterMap_map]
  refine List.Nodup.sublist (sublist_filterMap fun entry member m isOk => ?_) (SortedMap.nodup_keys _)
  have found : (compileBatch sources library imports previous).outcomes.find? entry.1 = some (.ok m) := by
    rw [SortedMap.find?_eq_some_iff, ← toOption_eq_some_iff.mp isOk]
    exact member
  exact compileBatch_graph distinct found

end

variable (paths : (sources.map ModuleSource.path).Nodup) {version : Version}
  (oneVersion : ∀ s ∈ sources, s.version = version)
include paths

theorem nodup_ids_of_paths : (sources.map ModuleSource.id).Nodup := by
  refine List.Nodup.of_map ModuleId.path ?_
  rw [List.map_map]
  exact paths

include oneVersion

/-- At one version, modules are told apart by their paths. -/
theorem compileBatch_paths {id id' : ModuleId} (different : id ≠ id') {m m' : ResolvedModule}
    (found : (compileBatch sources library imports previous).outcomes.find? id = some (.ok m))
    (found' : (compileBatch sources library imports previous).outcomes.find? id' = some (.ok m')) :
    id.version = id'.version ∧ id.path ≠ id'.path := by
  have distinct := nodup_ids_of_paths paths
  obtain ⟨_, _, _, _, _, s, inside, rfl, _⟩ := compileBatch_compiled distinct found
  obtain ⟨_, _, _, _, _, s', inside', rfl, _⟩ := compileBatch_compiled distinct found'
  refine ⟨(oneVersion s inside).trans (oneVersion s' inside').symm, fun same => different ?_⟩
  rw [List.inj_on_of_nodup_map paths inside inside' same]

theorem compileBatch_sources_ne {id id' : ModuleId} (different : id ≠ id') {m m' : ResolvedModule}
    (found : (compileBatch sources library imports previous).outcomes.find? id = some (.ok m))
    (found' : (compileBatch sources library imports previous).outcomes.find? id' = some (.ok m'))
    {e e' : Edge} (member : e ∈ m.graph.expansions) (member' : e' ∈ m'.graph.expansions) :
    e.source.path ≠ e'.source.path := by
  intro same
  have distinct := nodup_ids_of_paths paths
  obtain ⟨_, child⟩ := (compileBatch_expandsSingly distinct found).sources e member
  obtain ⟨_, child'⟩ := (compileBatch_expandsSingly distinct found').sources e' member'
  rw [child, child'] at same
  have sameModule := Path.child_inj same
  refine (compileBatch_paths paths oneVersion different found found').2 ?_
  rw [← compileBatch_graph distinct found, ← compileBatch_graph distinct found']
  exact sameModule

/-- Where no layer is contested, no two modules expand the same node. -/
theorem compileBatch_uncontested
    (uncontested : ∀ layer ∈ (compileBatch sources library imports previous).layers,
      (compileBatch sources library imports previous).IsUncontested layer)
    {id id' : ModuleId} (different : id ≠ id') {m m' : ResolvedModule}
    (found : (compileBatch sources library imports previous).outcomes.find? id = some (.ok m))
    (found' : (compileBatch sources library imports previous).outcomes.find? id' = some (.ok m'))
    {path : Path} (expands : path ∈ m.graph.expandedPaths) : path ∉ m'.graph.expandedPaths := by
  have distinct := nodup_ids_of_paths paths
  obtain ⟨sameVersion, otherPath⟩ := compileBatch_paths paths oneVersion different found found'
  obtain ⟨before, layer, after, split, inLayer, _⟩ := compileBatch_compiled distinct found
  obtain ⟨before', layer', after', split', inLayer', _⟩ := compileBatch_compiled distinct found'
  rcases append_cons_cases (split.symm.trans split') with earlier | earlier | rfl
  · intro expands'
    have inBefore := List.mem_flatten_of_mem earlier inLayer
    exact compileBatch_uncontested_earlier distinct split' inLayer' inBefore sameVersion otherPath
      found' found expands' expands
  · have inBefore := List.mem_flatten_of_mem earlier inLayer'
    exact compileBatch_uncontested_earlier distinct split inLayer inBefore sameVersion.symm
      otherPath.symm found found' expands
  · have inLayers : layer ∈ (compileBatch sources library imports previous).layers := by
      rw [split]
      exact List.mem_append_right _ List.mem_cons_self
    exact uncontested layer inLayers id inLayer id' inLayer' different m m' found found' path expands

/-- No path is the source of two expansions, whatever the layers. -/
theorem compileBatch_nodup_sources :
    (((compileBatch sources library imports previous).edges.filter Edge.isExpansion).map
      fun e => e.source.path).Nodup := by
  have distinct := nodup_ids_of_paths paths
  have perModule : ((compileBatch sources library imports previous).edges.filter Edge.isExpansion).map
      (fun e => e.source.path) = (compileBatch sources library imports previous).compiled.flatMap
        fun m => m.graph.expansionSources := by
    rw [BatchResult.edges, List.filter_flatMap, List.map_flatMap]
    rfl
  rw [perModule, List.nodup_flatMap]
  refine ⟨fun m member => ?_, ?_⟩
  · obtain ⟨id, found⟩ := BatchResult.mem_compiled.mp member
    exact (compileBatch_expandsSingly distinct found).distinct
  · refine (List.pairwise_map.mp (compileBatch_nodup_compiled distinct)).imp_of_mem ?_
    intro m m' member member' different path first second
    obtain ⟨id, found⟩ := BatchResult.mem_compiled.mp member
    obtain ⟨id', found'⟩ := BatchResult.mem_compiled.mp member'
    rw [compileBatch_graph distinct found, compileBatch_graph distinct found'] at different
    obtain ⟨e, inside, same⟩ := List.mem_map.mp first
    obtain ⟨e', inside', same'⟩ := List.mem_map.mp second
    exact compileBatch_sources_ne paths oneVersion different found found' inside inside'
      (same.trans same'.symm)

/-- The expansions of a batch are single just if no layer is contested: nothing else can go wrong,
whether or not every module compiles. -/
theorem compileBatch_areSingle_iff : AreSingle (compileBatch sources library imports previous).edges ↔
    ∀ layer ∈ (compileBatch sources library imports previous).layers,
      (compileBatch sources library imports previous).IsUncontested layer := by
  have distinct := nodup_ids_of_paths paths
  constructor
  · intro single layer _ id _ id' _ different m m' found found' path expands expands'
    obtain ⟨e, member, t, atEnd, rfl⟩ := ModuleGraph.mem_expandedPaths.mp expands
    obtain ⟨e', member', t', atEnd', same⟩ := ModuleGraph.mem_expandedPaths.mp expands'
    refine compileBatch_sources_ne paths oneVersion different found found' member member' ?_
    exact single.targets e (BatchResult.mem_expansions.mpr ⟨id, m, found, member⟩) e'
      (BatchResult.mem_expansions.mpr ⟨id', m', found', member'⟩) t atEnd t' atEnd' same.symm
  · intro uncontested
    refine ⟨compileBatch_nodup_sources paths oneVersion, ?_⟩
    intro e member e' member' t atEnd t' atEnd' same
    obtain ⟨id, m, found, member⟩ := BatchResult.mem_expansions.mp member
    obtain ⟨id', m', found', member'⟩ := BatchResult.mem_expansions.mp member'
    by_cases different : id = id'
    · subst different
      obtain rfl : m = m' := Except.ok.inj (Option.some.inj (found.symm.trans found'))
      exact (compileBatch_expandsSingly distinct found).targets e member e' member' t atEnd t' atEnd' same
    · have expands := ModuleGraph.mem_expandedPaths.mpr ⟨e, member, t, atEnd, same⟩
      have expands' := ModuleGraph.mem_expandedPaths.mpr ⟨e', member', t', atEnd', rfl⟩
      have apart := compileBatch_uncontested paths oneVersion uncontested different found found' expands
      exact absurd expands' apart

end

/-- A module with an assertion. -/
def assertedSource : ModuleSource :=
  ⟨.single "X", .plain 1 0 0, "deduc T \x7b asrt C \x7b en = \"c\" \x7d \x7d"⟩

/-- A module that expands the assertion. -/
def provedSource (name : String) : ModuleSource :=
  ⟨.single name, .plain 1 0 0, "deduc P of X.T.C \x7b\x7d"⟩

theorem compileBatch_areSingle_provedSource :
    AreSingle (compileBatch [assertedSource, provedSource "a"] {} {} none).edges := by
  have layers : (compileBatch [assertedSource, provedSource "a"] {} {} none).layers =
      [[assertedSource.id], [(provedSource "a").id]] := by decide +kernel
  have oneVersion : ∀ s ∈ [assertedSource, provedSource "a"], s.version = .plain 1 0 0 := by decide
  refine (compileBatch_areSingle_iff (by decide) oneVersion).mpr ?_
  rw [layers]
  intro layer member id inLayer id' inLayer' different
  rcases List.mem_cons.mp member with rfl | member
  · exact absurd ((List.mem_singleton.mp inLayer).trans (List.mem_singleton.mp inLayer').symm) different
  · obtain rfl := List.mem_singleton.mp member
    exact absurd ((List.mem_singleton.mp inLayer).trans (List.mem_singleton.mp inLayer').symm) different

/-- Two modules that do not depend on each other expand one assertion, and both compile. -/
theorem provedSource_contested :
    (compileBatch [assertedSource, provedSource "a", provedSource "b"] {} {} none).succeeded = true ∧
      ¬ AreSingle (compileBatch [assertedSource, provedSource "a", provedSource "b"] {} {} none).edges := by
  refine ⟨by decide +kernel, fun single => ?_⟩
  have expansions : (compileBatch [assertedSource, provedSource "a", provedSource "b"] {} {} none).edges =
      ["a", "b"].map fun name => .expansion ⟨(provedSource name).path.child "P", .plain 1 0 0⟩
        [⟨(assertedSource.path.child "T").child "C", .plain 1 0 0⟩] .declared := by decide +kernel
  rw [expansions] at single
  have same := single.targets _ List.mem_cons_self _ (List.mem_cons_of_mem _ List.mem_cons_self)
    _ List.mem_cons_self _ List.mem_cons_self rfl
  exact absurd same (by decide)

end Deductions
