import Deductions.Proofs.Companions
import Deductions.Proofs.Graph.Forest
import Deductions.Proofs.Links

namespace Deductions

open Resolution

/-- The sources of the expansions in a list. -/
def sourcesIn (edges : List Edge) : List Path := (edges.filter Edge.isExpansion).map fun e => e.source.path

theorem sourcesIn_append (edges edges' : List Edge) :
    sourcesIn (edges ++ edges') = sourcesIn edges ++ sourcesIn edges' := by
  rw [sourcesIn, List.filter_append, List.map_append]
  rfl

theorem sourcesIn_cons (e : Edge) (edges : List Edge) :
    sourcesIn (e :: edges) = (if e.isExpansion then [e.source.path] else []) ++ sourcesIn edges := by
  cases expansion : e.isExpansion <;> simp [sourcesIn, expansion]

theorem ModuleGraph.IsForest.withEdges {g : ModuleGraph} (forest : g.IsForest) (edges : List Edge) :
    ({ g with edges := edges }).IsForest :=
  ⟨forest.keyed, forest.sound, forest.within, forest.distinct, forest.named, forest.stored, forest.placed⟩

theorem ModuleGraph.addEdge_of_single {g : ModuleGraph} {e : Edge} (own : g.contains e.source.path = true)
    (single : e.isExpansion = true → e.source.path ∉ sourcesIn g.edges) :
    g.addEdge e = .ok { g with edges := g.edges ++ [e] } := by
  have free : (e.isExpansion && (g.expansionOf e.source.path).isSome) = false := by
    refine Bool.eq_false_iff.mpr fun taken => ?_
    rw [Bool.and_eq_true, expansionOf, List.find?_isSome] at taken
    obtain ⟨expansion, other, inside, same⟩ := taken
    rw [Bool.and_eq_true, beq_iff_eq] at same
    exact single expansion (List.mem_map.mpr ⟨other, List.mem_filter.mpr ⟨inside, same.1⟩, same.2⟩)
  simp [addEdge, own, free, pure, Except.pure]

/-- A graph takes all edges that leave its nodes, if no two expansions leave one node. -/
theorem Resolution.attach_eq {graph : ModuleGraph} {edges : List Edge}
    (own : ∀ e ∈ edges, graph.contains e.source.path = true)
    (single : (sourcesIn (graph.edges ++ edges)).Nodup) :
    attach graph edges = ({ graph with edges := graph.edges ++ edges }, []) := by
  have general : ∀ (taken : List Edge) (errors : List ResolveError), (sourcesIn (taken ++ edges)).Nodup →
      edges.foldl attachEdge ({ graph with edges := taken }, errors) =
        ({ graph with edges := taken ++ edges }, errors) := by
    clear single
    induction edges with
    | nil =>
      intro taken errors _
      rw [List.foldl_nil, List.append_nil]
    | cons e edges ih =>
      intro taken errors single
      obtain ⟨ownFirst, ownLater⟩ := List.forall_mem_cons.mp own
      have split : taken ++ e :: edges = taken ++ [e] ++ edges := by simp
      have added : ({ graph with edges := taken }).addEdge e = .ok { graph with edges := taken ++ [e] } := by
        refine ModuleGraph.addEdge_of_single ownFirst fun expansion member => ?_
        rw [sourcesIn_append, sourcesIn_cons, expansion] at single
        exact (List.nodup_append.mp single).2.2 _ member _ List.mem_cons_self rfl
      rw [List.foldl_cons, split, ← ih ownLater (taken ++ [e]) errors (split ▸ single), attachEdge]
      dsimp only
      rw [added]
  exact general graph.edges [] single

theorem Resolution.sourcesIn_foldl {graph : ModuleGraph} {s : Surroundings} {imports : ImportTable}
    {references : List Reference} {f : Findings} {nodes : List Node} :
    ∃ sources, sources.Sublist (nodes.map Node.path) ∧
      sourcesIn (nodes.foldl (resolveNode graph s imports references) f).edges = sourcesIn f.edges ++ sources := by
  induction nodes generalizing f with
  | nil => exact ⟨[], .slnil, (List.append_nil _).symm⟩
  | cons n nodes ih =>
    obtain ⟨sources, sublist, later⟩ := ih (f := resolveNode graph s imports references f n)
    obtain ⟨origin, first⟩ : ∃ origin,
      (resolveNode graph s imports references f n).edges.filter Edge.isExpansion = _ := expansions_resolveNode
    rw [List.foldl_cons, later, sourcesIn, first, List.map_append, List.append_assoc]
    split
    · exact ⟨sources, sublist.cons _, rfl⟩
    · exact ⟨n.path :: sources, sublist.cons_cons _, rfl⟩

section

variable {module : Path} {version : Version} {source : Source} {c : Candidate}
  (built : Candidate.build module version source = .ok c) (s : Surroundings)
include built

theorem Candidate.walk_of_build : (c.graph.walk.getD []).Perm c.graph.nodes.values := by
  obtain ⟨nodes, walked, perm⟩ := (isForest_of_build built).walk_eq
  rw [walked]
  exact perm

/-- The walk meets no path twice. -/
theorem Candidate.nodup_walk : ((c.graph.walk.getD []).map Node.path).Nodup := by
  refine ((walk_of_build built).map Node.path).nodup_iff.mpr ?_
  rw [(isForest_of_build built).keyed.map_path_values]
  exact c.graph.nodes.nodup_keys

theorem Candidate.contains_of_mem_walk {n : Node} (inside : n ∈ c.graph.walk.getD []) :
    c.graph.contains n.path = true :=
  (isForest_of_build built).keyed.contains_of_mem ((walk_of_build built).mem_iff.mp inside)

/-- Every edge that is found leaves a node of the module. -/
theorem Candidate.contains_source {e : Edge} (member : e ∈ (findings c s).edges) :
    c.graph.contains e.source.path = true := by
  obtain ⟨n, inside, isLink⟩ := isLink_of_mem_findings member
  have own := contains_of_mem_walk built inside
  cases isLink with
  | ghost loses => exact own
  | link _ leaves _ =>
    obtain ⟨a, same, rfl | ⟨_, ownA⟩⟩ := leaves
    · exact same ▸ own
    · exact same ▸ ownA

theorem Candidate.nodup_sourcesIn : (sourcesIn (findings c s).edges).Nodup := by
  obtain ⟨sources, sublist, same⟩ : ∃ sources : List Path, sources.Sublist ((c.graph.walk.getD []).map Node.path) ∧
    sourcesIn (findings c s).edges = _ := sourcesIn_foldl
  rw [same]
  exact (nodup_walk built).sublist sublist

/-- The graph of a candidate takes all edges that its resolution finds. -/
theorem Candidate.attach_findings :
    attach c.graph (findings c s).edges = ({ c.graph with edges := (findings c s).edges }, []) := by
  obtain ⟨_, _, noEdges⟩ := frame_of_build built
  rw [attach_eq (fun e => contains_source built s) (by rw [noEdges]; exact nodup_sourcesIn built s), noEdges]
  rfl

/-- No edge is refused, so that nothing is reported but what is wrong with the nodes. -/
theorem Candidate.graph_not_mem_errors {errors : List ResolveError} (refused : c.resolve s = .error errors)
    (error : GraphError) : .graph error ∉ errors := by
  rw [Candidate.resolve, attach_findings built] at refused
  dsimp only at refused
  split at refused
  · cases refused
    rw [List.mem_append, not_or]
    refine ⟨fun member => ?_, fun member => ?_⟩
    · obtain ⟨_, _, about⟩ := node?_of_mem_findings member
      cases about
    · obtain ⟨_, _, same⟩ := List.mem_map.mp member
      cases same
  · cases refused

theorem Candidate.resolve_eq_ok_of_build {m : ResolvedModule} (resolved : c.resolve s = .ok m) :
    m.graph = { c.graph with edges := (findings c s).edges } ∧ m.external = (findings c s).external ∧
      m.narrations = (findings c s).narrations := by
  rw [Candidate.resolve, attach_findings built] at resolved
  dsimp only at resolved
  split at resolved
  · cases resolved
  · cases resolved
    exact ⟨rfl, rfl, rfl⟩

end

namespace ModuleGraph

variable {g : ModuleGraph}

theorem IsForest.nodeErrors_eq (forest : g.IsForest) {n : Node} (member : n ∈ g.nodes.values) :
    g.nodeErrors n = [] := by
  have found := forest.keyed.mem_values_iff.mp member
  obtain ⟨version, fields⟩ := forest.sound n.path n found
  have within : (n.path.strip? g.module).isSome = true := forest.within n.path (contains_iff.mpr ⟨n, found⟩)
  have children : (n.children.filter fun inner => !g.contains inner) = [] := by
    refine List.filter_eq_nil_iff.mpr fun inner inside => ?_
    have stored := forest.stored (some n.path) inner (by rw [ModuleGraph.inside, found]; exact inside)
    simp [stored]
  simp [nodeErrors, Option.isSome_iff_ne_none.mp within, version, children, fields]

/-- The edges are checked one by one, where no two expansions leave one node. -/
theorem edgeErrors_eq {sources : List Path} {edges : List Edge} (single : (sources ++ sourcesIn edges).Nodup) :
    g.edgeErrors sources edges = edges.flatMap g.endpointErrors := by
  induction edges generalizing sources with
  | nil => rfl
  | cons e edges ih =>
    rw [sourcesIn_cons] at single
    rw [edgeErrors, List.flatMap_cons]
    cases expansion : e.isExpansion with
    | false =>
      rw [expansion] at single
      simp [ih single]
    | true =>
      rw [expansion, if_pos rfl] at single
      have fresh : e.source.path ∉ sources := fun member =>
        (List.nodup_append.mp single).2.2 _ member _ List.mem_cons_self rfl
      have later : ((e.source.path :: sources) ++ sourcesIn edges).Nodup := by
        refine (List.Perm.nodup_iff ?_).mp single
        exact List.perm_middle
      simp [ih later, fresh]

/-- In a forest, only ends of edges can be wrong. -/
theorem IsForest.validate_eq (forest : g.IsForest) (single : (sourcesIn g.edges).Nodup) :
    g.validate = some (g.edges.flatMap g.endpointErrors) := by
  obtain ⟨nodes, walked, perm⟩ := forest.walk_eq
  have sound : g.nodes.values.flatMap g.nodeErrors = [] :=
    List.flatMap_eq_nil_iff.mpr fun n member => forest.nodeErrors_eq member
  have reached : g.unreachedErrors nodes = [] := by
    rw [unreachedErrors, if_pos]
    rw [perm.length_eq, SortedMap.values, List.length_map, SortedMap.size]
  have edges : g.edgeErrors [] g.edges = g.edges.flatMap g.endpointErrors := edgeErrors_eq single
  simp [validate, walked, sound, reached, edges]

end ModuleGraph

/-- The ends of an edge that are nodes of other modules, though by path and version they could be of this
one. -/
def ResolvedModule.strays (m : ResolvedModule) (e : Edge) : List NodeRef :=
  if e.isGhost then []
  else e.targets.filter fun r =>
    m.external.contains r && r.path.startsWith m.graph.module && r.version == m.graph.version

theorem Candidate.endpointErrors_eq {module : Path} {version : Version} {source : Source} {c : Candidate}
    (built : Candidate.build module version source = .ok c) {s : Surroundings} {m : ResolvedModule}
    (resolved : c.resolve s = .ok m) {e : Edge} (member : e ∈ m.graph.edges) :
    m.graph.endpointErrors e = (m.strays e).map fun r => .danglingEdge e.kind e.source.path r.path := by
  obtain ⟨graph, external, _⟩ := resolve_eq_ok_of_build built s resolved
  have contains : ∀ path, m.graph.contains path = c.graph.contains path := fun path => by
    rw [graph]
    rfl
  rw [graph] at member
  have own := contains_source built s member
  obtain ⟨n, _, isLink⟩ := isLink_of_mem_findings member
  rw [ModuleGraph.endpointErrors, ResolvedModule.strays]
  cases isLink with
  | ghost loses => simp [Edge.isGhost]
  | link noGhost _ targets =>
    have known : ∀ r ∈ e.targets, m.external.contains r = !c.graph.contains r.path := by
      intro r atEnd
      obtain ⟨t, rfl, reaches, knows⟩ := targets r atEnd
      rw [external, Bool.eq_iff_iff, SortedMap.contains_iff, Bool.not_eq_true']
      constructor
      · intro recorded
        obtain ⟨_, _, t', same, _, outside⟩ := reaches_of_mem_external recorded
        rw [← same]
        exact outside
      · intro outside
        refine knows.resolve_left fun inside => ?_
        rw [show c.graph.contains t.path = false from outside] at inside
        cases inside
    rw [Edge.endpoints, List.filter_cons_of_neg (by simp [contains, own]), noGhost, if_neg Bool.false_ne_true]
    refine congrArg _ (List.filter_congr fun r atEnd => ?_)
    rw [known r atEnd, contains]
    cases c.graph.contains r.path <;> simp

theorem ModuleSource.resolve_of_compile {s : ModuleSource} {surroundings : Surroundings} {module : Path}
    {errors : List ResolveError} (refused : s.compile surroundings = .error (.resolution module errors)) :
    ∃ c, s.build = .ok c ∧ c.resolve surroundings = .error errors := by
  rw [compile] at refused
  cases built : s.build with
  | error e =>
    rw [built] at refused
    cases refused
    exact absurd built (s.build_ne_resolution module errors)
  | ok c =>
    rw [built] at refused
    exact ⟨c, rfl, Candidate.compile_eq_error refused⟩

/-- A module that compiles has a graph with nothing wrong but the edges that stray: each is reported, once
for each node of another module that it takes for one of its own. And no edge keeps a module from being
compiled. -/
theorem ModuleSource.validate_compile (s : ModuleSource) (surroundings : Surroundings) :
    (∀ m, s.compile surroundings = .ok m → m.graph.validate = some (m.graph.edges.flatMap fun e =>
      (m.strays e).map fun r => .danglingEdge e.kind e.source.path r.path)) ∧
    ∀ module errors, s.compile surroundings = .error (.resolution module errors) →
      ∀ error, ResolveError.graph error ∉ errors := by
  constructor
  · intro m compiled
    obtain ⟨c, built, resolved⟩ := compile_eq_ok.mp compiled
    obtain ⟨_, _, build⟩ := s.build_eq_ok built
    obtain ⟨graph, _⟩ := Candidate.resolve_eq_ok_of_build build surroundings resolved
    have forest : m.graph.IsForest := graph ▸ (Candidate.isForest_of_build build).withEdges _
    have single : (sourcesIn m.graph.edges).Nodup := by
      rw [graph]
      exact Candidate.nodup_sourcesIn build surroundings
    rw [forest.validate_eq single]
    exact congrArg some (List.flatMap_congr fun e member => Candidate.endpointErrors_eq build resolved member)
  · intro module errors refused error
    obtain ⟨c, built, refused⟩ := resolve_of_compile refused
    obtain ⟨_, _, build⟩ := s.build_eq_ok built
    exact Candidate.graph_not_mem_errors build surroundings refused error

/-- The graph is that of a module which compiled at the version. -/
def ModuleGraph.IsCompiledAt (g : ModuleGraph) (version : Version) : Prop :=
  ∃ s : ModuleSource, s.version = version ∧ ∃ surroundings m, s.compile surroundings = .ok m ∧ m.graph = g

namespace ModuleGraph.IsCompiledAt

variable {g : ModuleGraph} {version : Version} (compiled : g.IsCompiledAt version)
include compiled

theorem exists_build : ∃ (module : Path) (source : Source) (c : Candidate) (s : Surroundings),
    Candidate.build module version source = .ok c ∧ g = { c.graph with edges := (findings c s).edges } := by
  obtain ⟨s, rfl, surroundings, m, compiled, rfl⟩ := compiled
  obtain ⟨c, built, resolved⟩ := ModuleSource.compile_eq_ok.mp compiled
  obtain ⟨source, _, build⟩ := s.build_eq_ok built
  exact ⟨s.path, source, c, surroundings, build,
    (Candidate.resolve_eq_ok_of_build build surroundings resolved).1⟩

theorem isForest : g.IsForest := by
  obtain ⟨_, _, c, s, build, rfl⟩ := compiled.exists_build
  exact (Candidate.isForest_of_build build).withEdges _

theorem version_eq : g.version = version := by
  obtain ⟨_, _, c, s, build, rfl⟩ := compiled.exists_build
  exact (Candidate.frame_of_build build).2.1

theorem contains_source : ∀ e ∈ g.edges, g.contains e.source.path = true := by
  obtain ⟨_, _, c, s, build, rfl⟩ := compiled.exists_build
  exact fun e member => Candidate.contains_source build s member

end ModuleGraph.IsCompiledAt

/-- A module that expands a node of a module inside it. -/
def aroundSource : ModuleSource := ⟨.single "p", .plain 1 0 0, "deduc D of p.X.C \x7b\x7d"⟩

/-- The module inside, with this node. -/
def withinSource : ModuleSource := ⟨aroundSource.path.child "X", .plain 1 0 0, "deduc C \x7b\x7d"⟩

theorem ModuleSource.validate_compile_aroundSource : ∃ within m module errors,
    withinSource.compile {} = .ok within ∧
    aroundSource.compile { library := ModuleLibrary.insert {} within.graph } = .ok m ∧
    m.graph.validate = some (m.graph.edges.flatMap fun e =>
      (m.strays e).map fun r => .danglingEdge e.kind e.source.path r.path) ∧
    aroundSource.compile {} = .error (.resolution module errors) ∧
    ∀ error, ResolveError.graph error ∉ errors := by
  have compiles : ((withinSource.compile {}).toOption.bind fun within =>
      (aroundSource.compile { library := ModuleLibrary.insert {} within.graph }).toOption).isSome = true := by
    decide +kernel
  obtain ⟨m, compiles⟩ := Option.isSome_iff_exists.mp compiles
  obtain ⟨within, isWithin, compiled⟩ := Option.bind_eq_some_iff.mp compiles
  have compiled := Batch.toOption_eq_some_iff.mp compiled
  have refused : aroundSource.compile {} = .error (.resolution aroundSource.path
      [.unresolved (aroundSource.path.child "D") (withinSource.path.child "C")]) := by
    decide +kernel
  exact ⟨within, m, _, _, Batch.toOption_eq_some_iff.mp isWithin, compiled,
    (validate_compile aroundSource _).1 m compiled, refused,
    (validate_compile aroundSource {}).2 _ _ refused⟩

/-- An edge to a node of a module inside the own one strays. -/
theorem aroundSource_strays : ∃ within m, withinSource.compile {} = .ok within ∧
    aroundSource.compile { library := ModuleLibrary.insert {} within.graph } = .ok m ∧
    m.graph.validate = some [.danglingEdge .expansion (aroundSource.path.child "D")
      (withinSource.path.child "C")] := by
  have strays : ((withinSource.compile {}).toOption.bind fun within =>
      (aroundSource.compile { library := ModuleLibrary.insert {} within.graph }).toOption.map fun m =>
        m.graph.validate) = some (some [.danglingEdge .expansion (aroundSource.path.child "D")
          (withinSource.path.child "C")]) := by
    decide +kernel
  obtain ⟨within, isWithin, strays⟩ := Option.bind_eq_some_iff.mp strays
  obtain ⟨m, compiled, errors⟩ := Option.map_eq_some_iff.mp strays
  exact ⟨within, m, Batch.toOption_eq_some_iff.mp isWithin, Batch.toOption_eq_some_iff.mp compiled, errors⟩

end Deductions
