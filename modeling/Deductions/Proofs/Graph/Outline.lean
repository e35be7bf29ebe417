import Deductions.Proofs.Graph.Growth
import Deductions.Proofs.Graph.WellFormed
import Deductions.Proofs.Source.Values

namespace Deductions

namespace Source

variable {s : Source}

theorem outline_eq (s : Source) : s.outline = s.blocks.flatMap fun b => PlacedBlock.below ⟨b, []⟩ :=
  List.flatMap_map ..

theorem isTidy_of_isWellFormed (wellFormed : s.IsWellFormed) {b : Block} (member : b ∈ s.blocks) : b.IsTidy where
  header := (wellFormed.blocks b member).header
  distinct := (wellFormed.blocks b member).distinct
  items := (wellFormed.blocks b member).items

/-- All blocks of a well-formed source are taken. -/
theorem takes_draft (wellFormed : s.IsWellFormed) (module : Path) (version : Version) (errors : List BuildError) :
    Draft.Takes { graph := { module := module, version := version }, errors := errors }
      (Draft.addItems none { graph := { module := module, version := version }, errors := errors }
        (s.blocks.map fun b => .block b.header b.items)) [] s.blocks := by
  have blocks : blocksIn (s.blocks.map fun b => .block b.header b.items) = s.blocks := by
    rw [blocksIn, List.filterMap_map]
    exact List.filterMap_some
  have taken := Draft.takes_addItems (s.blocks.map fun b => .block b.header b.items)
    { graph := { module := module, version := version }, errors := errors } [] ?_ ?_
  · rw [blocks] at taken
    exact taken
  · rw [blocks]
    exact fun b member => isTidy_of_isWellFormed wellFormed member
  · rw [blocks]
    refine ⟨?_, (List.nodup_append.mp wellFormed.distinct).2.1, ?_⟩
    · intro _ place
      cases place
    · intro _ _ _ stored
      cases stored

end Source

/-- What is wrong with an import is its module name. -/
theorem mem_buildImports {module : Path} {imports : List Import} :
    ∀ error ∈ (buildImports module imports).2, ∃ name, error = .invalidImport module name := by
  rw [buildImports]
  refine List.foldlRecOn
    (motive := fun read : ImportTable × List BuildError => ∀ error ∈ read.2, ∃ name, error = .invalidImport module name)
    imports _ (List.forall_mem_nil _) fun read sound i _ => ?_
  dsimp only
  split
  · exact List.forall_mem_append.mpr ⟨sound, List.forall_mem_singleton.mpr ⟨_, rfl⟩⟩
  · exact sound

namespace Candidate

variable {module : Path} {version : Version} {source : Source} {c : Candidate}

/-- What is wrong with a module is wrong with an import or with a block by itself. -/
theorem errors_of_build (wellFormed : source.IsWellFormed) {e : ConstructionError}
    (refused : Candidate.build module version source = .error e) :
    e.errors = (buildImports module source.imports).2 ++
      source.outline.flatMap (PlacedBlock.errors module version) := by
  have taken := Source.takes_draft wellFormed module version (buildImports module source.imports).2
  unfold Candidate.build at refused
  dsimp only at refused
  split at refused
  · cases refused
  · cases refused
    rw [taken.errors, source.outline_eq]

/-- Nothing is wrong with the blocks of a built module, and all of them are in it. -/
theorem grows_of_build (wellFormed : source.IsWellFormed) (built : Candidate.build module version source = .ok c) :
    ModuleGraph.Grows { module := module, version := version } c.graph none
        (source.outermost.map (PlacedBlock.path module)) (source.outline.map (PlacedBlock.node module version)) ∧
      c.references = source.outline.flatMap (PlacedBlock.references module) ∧
      ∀ p ∈ source.outline, p.errors module version = [] := by
  have taken := Source.takes_draft wellFormed module version (buildImports module source.imports).2
  unfold Candidate.build at built
  dsimp only at built
  split at built
  next noErrors =>
    cases built
    have noErrors := taken.errors.symm.trans (List.isEmpty_iff.mp noErrors)
    rw [source.outline_eq]
    refine ⟨?_, taken.references, List.flatMap_eq_nil_iff.mp (List.append_eq_nil_iff.mp noErrors).2⟩
    have names : source.outermost.map (PlacedBlock.path module) =
        source.blocks.map fun b => (scopeOf module []).child b.header.name := List.map_map ..
    rw [names]
    exact taken.graph
  · cases built

end Candidate

namespace ModuleGraph

/-- The nodes of the graph are those of the blocks of a source. -/
structure IsOutline (g : ModuleGraph) (s : Source) : Prop where
  forest : g.IsForest
  stored : ∀ p ∈ s.outline, g.node? (p.path g.module) = some (p.node g.module g.version)
  roots : g.roots = s.outermost.map (PlacedBlock.path g.module)

/-- What comes of a list, if all that can come of each of its members is known. -/
theorem flatten_of_mapM {α β γ : Type} {f : α → γ} {g : γ → Option (List β)} {h : α → List β} {l : List α}
    (each : ∀ a ∈ l, ∀ tree, g (f a) = some tree → tree = h a) {trees : List (List β)}
    (mapped : (l.map f).mapM g = some trees) : trees.flatten = l.flatMap h := by
  induction l generalizing trees with
  | nil =>
    cases mapped
    rfl
  | cons a l ih =>
    obtain ⟨first, later⟩ := List.forall_mem_cons.mp each
    rw [List.map_cons, List.mapM_cons] at mapped
    obtain ⟨tree, found, mapped⟩ := Option.bind_eq_some_iff.mp mapped
    obtain ⟨others, mappedLater, mapped⟩ := Option.bind_eq_some_iff.mp mapped
    cases mapped
    rw [List.flatten_cons, List.flatMap_cons, first tree found, ih later mappedLater]

namespace IsOutline

variable {g : ModuleGraph} {s : Source} (outline : g.IsOutline s)
include outline

/-- A visit meets what is inside a block in the order of the source. -/
theorem visit_eq {depth : Nat} {p : PlacedBlock} (member : p ∈ s.outline) {nodes : List Node}
    (visited : g.visit depth (p.path g.module) = some nodes) :
    nodes = p.below.map (PlacedBlock.node g.module g.version) := by
  induction depth generalizing p nodes with
  | zero =>
    rw [visit, outline.stored p member] at visited
    cases visited
  | succ depth ih =>
    rw [visit, outline.stored p member] at visited
    obtain ⟨trees, mapped, done⟩ := Option.bind_eq_some_iff.mp visited
    cases done
    have inside : trees.flatten = p.inner.flatMap fun q => q.below.map (PlacedBlock.node g.module g.version) :=
      flatten_of_mapM (fun q inner tree visited => ih (Source.mem_outline_of_inner member inner) visited) mapped
    rw [inside, PlacedBlock.below_eq, List.map_cons, List.map_flatMap]

theorem walk_eq : g.walk = some (s.outline.map (PlacedBlock.node g.module g.version)) := by
  obtain ⟨nodes, walked, _⟩ := outline.forest.walk_eq
  obtain ⟨trees, mapped, done⟩ := Option.bind_eq_some_iff.mp walked
  cases done
  rw [outline.roots] at mapped
  have whole : trees.flatten = s.outermost.flatMap fun p => p.below.map (PlacedBlock.node g.module g.version) := by
    refine flatten_of_mapM (fun p outer tree visited => outline.visit_eq ?_ visited) mapped
    exact List.mem_flatMap.mpr ⟨p, outer, p.self_mem_below⟩
  rw [walked, whole, Source.outline, List.map_flatMap]

/-- No two blocks have one path, and every node is the node of a block. -/
theorem perm_values : (s.outline.map (PlacedBlock.node g.module g.version)).Perm g.nodes.values := by
  obtain ⟨nodes, walked, perm⟩ := outline.forest.walk_eq
  cases walked.symm.trans outline.walk_eq
  exact perm

theorem nodup_path : (s.outline.map (PlacedBlock.path g.module)).Nodup := by
  have paths := (outline.perm_values.map Node.path).nodup_iff.mpr
    (outline.forest.keyed.map_path_values ▸ g.nodes.nodup_keys)
  rwa [List.map_map] at paths

theorem node?_module : g.node? g.module = none := by
  refine Option.eq_none_iff_forall_ne_some.mpr fun n found => ?_
  have within := outline.forest.within _ (contains_iff.mpr ⟨n, found⟩)
  exact Nat.lt_irrefl _ (Path.isSome_strip?_iff.mp within).2

/-- What is found at the scope of a block is the node around it. -/
theorem node?_scopeOf {p : PlacedBlock} (member : p ∈ s.outline) :
    g.node? (scopeOf g.module p.around) = p.outers.head?.map (PlacedBlock.node g.module g.version) := by
  obtain ⟨b, around⟩ := p
  cases around with
  | nil => exact outline.node?_module
  | cons outer around =>
    exact outline.stored ⟨outer, around⟩ (Source.mem_outline_of_outer member List.mem_cons_self)

theorem parentOf_eq {p : PlacedBlock} (member : p ∈ s.outline) :
    g.parentOf (p.path g.module) = p.outers.head?.map (PlacedBlock.node g.module g.version) := by
  rw [parentOf, PlacedBlock.path, Path.parent_child, Option.bind_some]
  exact outline.node?_scopeOf member

theorem ancestorsFrom_eq {fuel : Nat} {p : PlacedBlock} (member : p ∈ s.outline)
    (enough : p.around.length < fuel) :
    g.ancestorsFrom fuel (p.path g.module) = p.outers.map (PlacedBlock.node g.module g.version) := by
  induction fuel generalizing p with
  | zero => exact absurd enough (Nat.not_lt_zero _)
  | succ fuel ih =>
    have found := outline.node?_scopeOf member
    rw [ancestorsFrom, PlacedBlock.path, Path.parent_child]
    dsimp only
    rw [found]
    obtain ⟨b, around⟩ := p
    cases around with
    | nil => rfl
    | cons outer around =>
      have outside := ih (Source.mem_outline_of_outer member List.mem_cons_self)
        (p := ⟨outer, around⟩) (Nat.lt_of_succ_lt_succ enough)
      exact congrArg _ outside

theorem ancestors_eq {p : PlacedBlock} (member : p ∈ s.outline) :
    g.ancestors (p.path g.module) = p.outers.map (PlacedBlock.node g.module g.version) := by
  refine outline.ancestorsFrom_eq member ?_
  rw [PlacedBlock.path, Path.length_child, Path.length, segments_scopeOf, List.length_append,
    List.length_reverse, List.length_map]
  omega

theorem topLevelOf_eq {p : PlacedBlock} (member : p ∈ s.outline) :
    g.topLevelOf (p.path g.module) = some (p.outermost.node g.module g.version) := by
  obtain ⟨inside, segments⟩ := p.exists_segments_path g.module
  have begins : (p.path g.module).startsWith g.module = true := Path.startsWith_iff.mpr ⟨_, segments.symm⟩
  have stripped : (p.path g.module).strip? g.module =
      some ⟨p.outermost.block.header.name :: inside, List.cons_ne_nil _ _⟩ := by
    rw [Path.strip?, if_pos begins, Path.ofList?_eq_some_iff, segments, Path.length, List.drop_left]
  have top : p.outermost.path g.module = g.module.child p.outermost.block.header.name := by
    rw [PlacedBlock.path, p.around_outermost]
    rfl
  rw [topLevelOf, stripped, Option.bind_some]
  exact top ▸ outline.stored _ (Source.outermost_mem_outline member)

end IsOutline

end ModuleGraph

/-- A field of a node is a field of its block. -/
theorem PlacedBlock.field?_node {p : PlacedBlock} (distinct : HasDistinctNames p.block.items) {module : Path}
    {version : Version} {name text : String} : (p.node module version).field? name = some text ↔
      ∃ f ∈ p.block.fields, f.name = name ∧ f.value.text = text := by
  have names : ((p.block.fields.map fun f => (f.name, f.value.text)).map Prod.fst).Nodup := by
    have same : (p.block.fields.map fun f => (f.name, f.value.text)).map Prod.fst = fieldNames p.block.items := by
      rw [List.map_map, Block.fields, List.map_filterMap]
      rfl
    rw [same]
    exact distinct.1
  refine (SortedMap.find?_ofList_eq_some_iff names).trans ?_
  rw [List.mem_map]
  constructor
  · rintro ⟨f, member, same⟩
    cases same
    exact ⟨f, member, rfl, rfl⟩
  · rintro ⟨f, member, rfl, rfl⟩
    exact ⟨f, member, rfl⟩

/-- The blocks of a well-formed source are in order. -/
theorem Source.isTidy_of_mem_outline {s : Source} (wellFormed : s.IsWellFormed) {p : PlacedBlock}
    (member : p ∈ s.outline) : p.block.IsTidy := by
  refine outline_induction (motive := fun p => p.block.IsTidy)
    (fun b inSource => isTidy_of_isWellFormed wellFormed inSource) ?_ p member
  intro p _ tidy q inner
  obtain ⟨b, inside, rfl⟩ := List.mem_map.mp inner
  exact (isTidy_of_mem_blocksIn tidy.items inside).2

theorem Candidate.isOutline_of_build {module : Path} {version : Version} {source : Source} {c : Candidate}
    (wellFormed : source.IsWellFormed) (built : Candidate.build module version source = .ok c) :
    c.graph.IsOutline source := by
  obtain ⟨grows, _⟩ := grows_of_build wellFormed built
  refine ⟨isForest_of_build built, fun p member => ?_, ?_⟩
  · rw [grows.module, grows.version]
    exact grows.new _ (List.mem_map_of_mem member)
  · rw [grows.module]
    exact grows.roots

theorem graph_not_mem_buildClause {error : GraphError} {clause : Clause} {source scope : Path} {span : Span}
    {seen names : List Path} : .graph error ∉ (buildClause clause source scope span seen names).2 := by
  induction names generalizing seen with
  | nil => exact List.not_mem_nil
  | cons name names ih =>
    rw [buildClause]
    dsimp only
    repeat' split
    · exact List.not_mem_cons_of_ne_of_not_mem BuildError.noConfusion ih
    · exact List.not_mem_cons_of_ne_of_not_mem BuildError.noConfusion ih
    · exact ih

/-- The graph takes nothing amiss in a block but its fields. -/
theorem PlacedBlock.mem_fieldErrors {p : PlacedBlock} {module : Path} {version : Version} {error : GraphError}
    (member : .graph error ∈ p.errors module version) : error ∈ (p.node module version).fieldErrors := by
  rw [errors, List.mem_append, List.mem_append, List.mem_append] at member
  rcases member with ((body | narration) | fields) | clauses
  · unfold Draft.bodyErrors at body
    repeat' split at body
    all_goals simp at body
  · unfold Draft.narrate at narration
    repeat' split at narration
    all_goals simp at narration
  · obtain ⟨_, member, same⟩ := List.mem_map.mp fields
    cases same
    exact member
  · obtain ⟨_, _, member⟩ := List.mem_flatMap.mp clauses
    exact absurd member graph_not_mem_buildClause

theorem Node.mem_fieldErrors {n : Node} {error : GraphError} (member : error ∈ n.fieldErrors) :
    (∃ field, error = .unknownField n.path n.kind field) ∨
      error = .missingField n.path n.kind n.kind.requiredFields := by
  rcases List.mem_append.mp member with unknown | missing
  · obtain ⟨field, _, rfl⟩ := List.mem_map.mp unknown
    exact .inl ⟨field, rfl⟩
  · split at missing
    · cases missing
    · exact .inr (List.mem_singleton.mp missing)

/-- The candidate is the source of the module, block by block. -/
structure Candidate.Mirrors (c : Candidate) (s : ModuleSource) (source : Source) : Prop where
  module : c.graph.module = s.path
  version : c.graph.version = s.version
  walk : c.graph.walk = some (source.outline.map (PlacedBlock.node s.path s.version))
  /-- Every node is the node of a block. -/
  nodes : (source.outline.map (PlacedBlock.node s.path s.version)).Perm c.graph.nodes.values
  distinct : (source.outline.map (PlacedBlock.path s.path)).Nodup
  roots : c.graph.roots = source.outermost.map (PlacedBlock.path s.path)
  fields : ∀ p ∈ source.outline, ∀ name text, (p.node s.path s.version).field? name = some text ↔
    ∃ f ∈ p.block.fields, f.name = name ∧ f.value.text = text
  laidOut : IsLaidOut s.text.toList (tokensOf s.text)
  values : source.values = (tokensOf s.text).filterMap Token.value?
  parent : ∀ p ∈ source.outline, c.graph.parentOf (p.path s.path) =
    p.outers.head?.map (PlacedBlock.node s.path s.version)
  ancestors : ∀ p ∈ source.outline, c.graph.ancestors (p.path s.path) =
    p.outers.map (PlacedBlock.node s.path s.version)
  topLevel : ∀ p ∈ source.outline, c.graph.topLevelOf (p.path s.path) =
    some (p.outermost.node s.path s.version)
  valid : c.graph.validate = some []

theorem Candidate.mirrors_of_build {s : ModuleSource} {source : Source} {c : Candidate}
    (parsed : Source.parse s.text = .ok source) (built : Candidate.build s.path s.version source = .ok c) :
    c.Mirrors s source := by
  have wellFormed := Source.isWellFormed_of_parse parsed
  have outline := isOutline_of_build wellFormed built
  obtain ⟨module, version, noEdges⟩ := frame_of_build built
  have module : c.graph.module = s.path := module
  have version : c.graph.version = s.version := version
  obtain ⟨laidOut, values⟩ := Source.values_eq parsed
  have valid : c.graph.validate = some [] := by
    rw [outline.forest.validate_eq (by rw [noEdges]; exact .nil), noEdges]
    rfl
  have walk := outline.walk_eq
  have nodes := outline.perm_values
  have distinct := outline.nodup_path
  have roots := outline.roots
  have parent := fun p (member : p ∈ source.outline) => outline.parentOf_eq member
  have ancestors := fun p (member : p ∈ source.outline) => outline.ancestors_eq member
  have topLevel := fun p (member : p ∈ source.outline) => outline.topLevelOf_eq member
  rw [module] at distinct roots
  rw [module, version] at walk nodes
  simp only [module, version] at parent ancestors topLevel
  have fields : ∀ p ∈ source.outline, ∀ name text, (p.node s.path s.version).field? name = some text ↔
      ∃ f ∈ p.block.fields, f.name = name ∧ f.value.text = text := fun p member _ _ =>
    PlacedBlock.field?_node (Source.isTidy_of_mem_outline wellFormed member).distinct
  exact ⟨module, version, walk, nodes, distinct, roots, fields, laidOut, values, parent, ancestors, topLevel, valid⟩

/-- A module of which something is wrong was read. -/
theorem ModuleSource.build_eq_construction {s : ModuleSource} {e : ConstructionError}
    (refused : s.build = .error (.construction e)) :
    ∃ source, Source.parse s.text = .ok source ∧ Candidate.build s.path s.version source = .error e := by
  cases parsed : Source.parse s.text with
  | error e => simp [build, parsed, Except.mapError, bind, Except.bind] at refused
  | ok source =>
    refine ⟨source, rfl, ?_⟩
    cases outcome : Candidate.build s.path s.version source <;>
      simp_all [build, Except.mapError, bind, Except.bind]

/-- A module that can be built mirrors its source; where it cannot, the graph takes nothing amiss but
fields. -/
theorem ModuleSource.build_mirrors (s : ModuleSource) :
    (∀ c, s.build = .ok c → ∃ source, Source.parse s.text = .ok source ∧ c.Mirrors s source) ∧
    ∀ e, s.build = .error (.construction e) → ∀ error, .graph error ∈ e.errors →
      (∃ node kind field, error = .unknownField node kind field) ∨
        ∃ node kind expected, error = .missingField node kind expected := by
  constructor
  · intro c built
    obtain ⟨source, parsed, build⟩ := build_eq_ok_iff.mp built
    exact ⟨source, parsed, Candidate.mirrors_of_build parsed build⟩
  · intro e refused error member
    obtain ⟨source, parsed, build⟩ := build_eq_construction refused
    rw [Candidate.errors_of_build (Source.isWellFormed_of_parse parsed) build] at member
    rcases List.mem_append.mp member with ofImport | ofBlock
    · obtain ⟨_, same⟩ := mem_buildImports _ ofImport
      cases same
    · obtain ⟨p, _, ofBlock⟩ := List.mem_flatMap.mp ofBlock
      rcases Node.mem_fieldErrors (PlacedBlock.mem_fieldErrors ofBlock) with ⟨field, same⟩ | same
      · exact .inl ⟨_, _, field, same⟩
      · exact .inr ⟨_, _, _, same⟩

/-- A statement with a proof, and a remark whose body is a raw block. -/
def nestedSource : ModuleSource := ⟨.single "a", .plain 1 0 0,
  "deduc T \x7b subdeduc S \x7b asrt C \x7b sy = \"a \\\"b\\\"\" \x7d \x7d en = @@@x\\n@@@ \x7d anno N on T \x7b body = @@@y@@@ \x7d"⟩

/-- A statement with a field that it cannot have. -/
def oddSource : ModuleSource := ⟨.single "a", .plain 1 0 0, "deduc T \x7b body = @@@y@@@ \x7d"⟩

theorem ModuleSource.build_mirrors_nestedSource :
    (∃ c source, nestedSource.build = .ok c ∧ Source.parse nestedSource.text = .ok source ∧
      c.Mirrors nestedSource source ∧ source.values = [.quoted "a \"b\"", .raw "x\\n", .raw "y"] ∧
      c.graph.walk.map (List.map fun n => n.path.text) = some ["a.T", "a.T.S", "a.T.S.C", "a.N"]) ∧
    ∃ e, oddSource.build = .error (.construction e) ∧ ∀ error, .graph error ∈ e.errors →
      (∃ node kind field, error = .unknownField node kind field) ∨
        ∃ node kind expected, error = .missingField node kind expected := by
  constructor
  · have isBuilt : (nestedSource.build.toOption.bind fun c => c.graph.walk.map (List.map fun n => n.path.text)) =
      some ["a.T", "a.T.S", "a.T.S.C", "a.N"] := by decide +kernel
    have values : ((Source.parse nestedSource.text).toOption.map Source.values) =
      some [.quoted "a \"b\"", .raw "x\\n", .raw "y"] := by decide +kernel
    obtain ⟨c, built, walk⟩ := Option.bind_eq_some_iff.mp isBuilt
    have built := Batch.toOption_eq_some_iff.mp built
    obtain ⟨source, parsed, mirrors⟩ := (build_mirrors nestedSource).1 c built
    rw [parsed] at values
    exact ⟨c, source, built, parsed, mirrors, Option.some.inj values, walk⟩
  · have refused : oddSource.build = .error (.construction ⟨oddSource.path,
        [.graph (.unknownField (oddSource.path.child "T") .deduction "body")]⟩) := by decide +kernel
    exact ⟨_, refused, (build_mirrors oddSource).2 _ refused⟩

end Deductions
