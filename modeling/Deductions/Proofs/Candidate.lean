import Deductions.Candidate
import Deductions.Proofs.SortedMap
import Deductions.Proofs.Source.Grammar

namespace Deductions

theorem ModuleGraph.addNode_frame {g g' : ModuleGraph} {node : Node} {parent : Option Path}
    (added : g.addNode node parent = .ok g') :
    g'.module = g.module ∧ g'.version = g.version ∧ g'.edges = g.edges := by
  simp only [addNode, bind, Except.bind, throw, throwThe, MonadExceptOf.throw] at added
  repeat' split at added
  all_goals first | (cases added; exact ⟨rfl, rfl, rfl⟩) | cases added

/-- Every node is found under its own path. -/
def ModuleGraph.IsKeyed (g : ModuleGraph) : Prop := ∀ path n, g.node? path = some n → n.path = path

theorem path_of_find?_insert {nodes : SortedMap Path Node}
    (keyed : ∀ path n, nodes.find? path = some n → n.path = path) {path : Path} {node : Node}
    (own : node.path = path) : ∀ path' n, (nodes.insert path node).find? path' = some n → n.path = path' := by
  intro path' n found
  by_cases same : path' = path
  · rw [same, SortedMap.find?_insert_self] at found
    cases found
    exact own.trans same.symm
  · rw [SortedMap.find?_insert_of_ne _ _ same] at found
    exact keyed path' n found

theorem ModuleGraph.isKeyed_addNode (g : ModuleGraph) (node : Node) (parent : Option Path)
    (g' : ModuleGraph) (keyed : g.IsKeyed) (added : g.addNode node parent = .ok g') : g'.IsKeyed := by
  simp only [addNode, bind, Except.bind, throw, throwThe, MonadExceptOf.throw] at added
  repeat' split at added
  all_goals try cases added
  next => exact path_of_find?_insert keyed rfl
  next path _ outer found _ =>
    -- the node around the new one stays where it was
    have stays : ({ outer with children := outer.children ++ [node.path] } : Node).path = path :=
      keyed path outer found
    exact path_of_find?_insert (path_of_find?_insert keyed stays) rfl

theorem mem_buildClause {clause : Clause} {source scope : Path} {span : Span} {seen names : List Path}
    {r : Reference} (member : r ∈ (buildClause clause source scope span seen names).1) :
    r.clause = clause ∧ r.source = source := by
  induction names generalizing seen with
  | nil => cases member
  | cons name names ih =>
    rw [buildClause] at member
    dsimp only at member
    split at member
    · exact ih member
    · split at member
      · exact ih member
      · rcases List.mem_cons.mp member with rfl | later
        · exact ⟨rfl, rfl⟩
        · exact ih later

namespace Draft

theorem mem_references_clause {d : Draft} {clause : Clause} {source scope : Path} {header : Header}
    {names : List Path} {r : Reference}
    (member : r ∈ (d.clause clause source scope header names).references) :
    r ∈ d.references ∨ r.clause = clause ∧ r.source = source ∧ names ≠ [] := by
  rcases List.mem_append.mp member with old | new
  · exact .inl old
  · obtain ⟨same, atSource⟩ := mem_buildClause new
    refine .inr ⟨same, atSource, ?_⟩
    rintro rfl
    cases new

/-- A block adds a reference of an `of` clause only if it has such a clause. -/
theorem mem_references_describe {d : Draft} {header : Header} {fields : List Field} {scope : Path}
    {r : Reference} (member : r ∈ (d.describe header fields scope).2.references)
    (isOf : r.clause = .of) :
    r ∈ d.references ∨ r.source = scope.child header.name ∧ header.clauses.of ≠ [] := by
  rcases mem_references_clause member with member | ⟨other, _⟩
  · rcases mem_references_clause member with member | ⟨other, _⟩
    · rcases mem_references_clause member with member | ⟨other, _⟩
      · rcases mem_references_clause member with member | ⟨_, atSource, some⟩
        · exact .inl member
        · exact .inr ⟨atSource, some⟩
      all_goals exact nomatch isOf.symm.trans other
    all_goals exact nomatch isOf.symm.trans other
  · exact nomatch isOf.symm.trans other

/-- The module of a draft and its graph without edges stay as they are. -/
def IsDraftOf (module : Path) (version : Version) (d : Draft) : Prop :=
  d.graph.module = module ∧ d.graph.version = version ∧ d.graph.edges = []

mutual

/-- What every added node keeps of a graph holds of the graph of a module in the end. -/
theorem graph_addItem {motive : ModuleGraph → Prop}
    (step : ∀ g node parent g', motive g → ModuleGraph.addNode g node parent = .ok g' → motive g')
    (parent : Option Path) : ∀ (d : Draft) (i : Item), motive d.graph → motive (addItem parent d i).graph
  | _, .field _, kept => kept
  | d, .block header items, kept => by
    rw [addItem]
    dsimp only
    split
    · exact kept
    next graph added => exact graph_addItems step _ _ items (step _ _ _ _ kept added)

theorem graph_addItems {motive : ModuleGraph → Prop}
    (step : ∀ g node parent g', motive g → ModuleGraph.addNode g node parent = .ok g' → motive g')
    (parent : Option Path) : ∀ (d : Draft) (items : List Item), motive d.graph →
    motive (addItems parent d items).graph
  | _, [], kept => kept
  | d, i :: items, kept => graph_addItems step parent _ items (graph_addItem step parent d i kept)

end

variable {module : Path} {version : Version}

theorem isDraftOf_addNode (g : ModuleGraph) (node : Node) (parent : Option Path) (g' : ModuleGraph)
    (kept : g.module = module ∧ g.version = version ∧ g.edges = [])
    (added : g.addNode node parent = .ok g') :
    g'.module = module ∧ g'.version = version ∧ g'.edges = [] := by
  obtain ⟨sameModule, sameVersion, sameEdges⟩ := ModuleGraph.addNode_frame added
  exact ⟨sameModule.trans kept.1, sameVersion.trans kept.2.1, sameEdges.trans kept.2.2⟩

theorem isDraftOf_addItem (parent : Option Path) (d : Draft) (i : Item) (kept : IsDraftOf module version d) :
    IsDraftOf module version (addItem parent d i) :=
  graph_addItem isDraftOf_addNode parent d i kept

mutual

/-- Inside a block there are no deductions, and with them no `of` clauses. -/
theorem mem_references_addItem {outer : NodeKind} (parent : Path) : ∀ (d : Draft) (i : Item),
    i.IsWellFormed outer → ∀ r ∈ (addItem (some parent) d i).references, r.clause = .of →
      r ∈ d.references
  | _, .field _, _, _, member, _ => member
  | d, .block header items, ⟨inside, headerWell, _, itemsWell⟩, r, member, isOf => by
    have noClause : header.clauses.of = [] := by
      refine Decidable.by_contra fun some => ?_
      rw [headerWell.2.of some] at inside
      cases outer <;> cases inside
    have described : r ∈ (d.describe header (items.filterMap Item.field?) parent).2.references →
        r ∈ d.references := fun member =>
      (mem_references_describe member isOf).resolve_right fun new => new.2 noClause
    rw [addItem] at member
    dsimp only [Option.getD_some] at member
    split at member
    · exact described member
    · have old := mem_references_addItems _ _ items itemsWell r member isOf
      exact described old

theorem mem_references_addItems {outer : NodeKind} (parent : Path) : ∀ (d : Draft) (items : List Item),
    Item.AreWellFormed outer items → ∀ r ∈ (addItems (some parent) d items).references, r.clause = .of →
      r ∈ d.references
  | _, [], _, _, member, _ => member
  | d, i :: items, ⟨first, rest⟩, r, member, isOf =>
    mem_references_addItem parent d i first r
      (mem_references_addItems parent _ items rest r member isOf) isOf

end

/-- The targets of expansions are named by top-level declarations. -/
def HasOuterSources (d : Draft) : Prop :=
  ∀ r ∈ d.references, r.clause = .of → ∃ name, r.source = d.graph.module.child name

theorem hasOuterSources_addItem {b : Block} (wellFormed : b.IsWellFormed) {d : Draft}
    (draft : IsDraftOf module version d) (kept : d.HasOuterSources) :
    (addItem none d (.block b.header b.items)).HasOuterSources := by
  intro r member isOf
  rw [(isDraftOf_addItem none d (.block b.header b.items) draft).1, ← draft.1]
  have described : r ∈ (d.describe b.header (b.items.filterMap Item.field?) d.graph.module).2.references →
      ∃ name, r.source = d.graph.module.child name := by
    intro member
    rcases mem_references_describe member isOf with old | ⟨atSource, _⟩
    · exact kept r old isOf
    · exact ⟨_, atSource⟩
  rw [addItem] at member
  dsimp only [Option.getD_none] at member
  split at member
  · exact described member
  · have old := mem_references_addItems _ _ b.items wellFormed.items r member isOf
    exact described old

theorem hasOuterSources_addItems {blocks : List Block} (wellFormed : ∀ b ∈ blocks, b.IsWellFormed)
    {d : Draft} (draft : IsDraftOf module version d) (kept : d.HasOuterSources) :
    (addItems none d (blocks.map fun b => .block b.header b.items)).HasOuterSources := by
  induction blocks generalizing d with
  | nil => exact kept
  | cons b blocks ih =>
    obtain ⟨first, rest⟩ := List.forall_mem_cons.mp wellFormed
    exact ih rest (isDraftOf_addItem none d _ draft) (hasOuterSources_addItem first draft kept)

end Draft

theorem Candidate.build_eq_ok {module : Path} {version : Version} {source : Source} {c : Candidate}
    (built : Candidate.build module version source = .ok c) : ∃ errors,
      c = ⟨(Draft.addItems none { graph := { module := module, version := version }, errors := errors }
          (source.blocks.map fun b => .block b.header b.items)).graph,
        (buildImports module source.imports).1,
        (Draft.addItems none { graph := { module := module, version := version }, errors := errors }
          (source.blocks.map fun b => .block b.header b.items)).references⟩ := by
  unfold Candidate.build at built
  dsimp only at built
  split at built
  · cases built
    exact ⟨_, rfl⟩
  · cases built

theorem Candidate.frame_of_build {module : Path} {version : Version} {source : Source} {c : Candidate}
    (built : Candidate.build module version source = .ok c) :
    c.module = module ∧ c.version = version ∧ c.graph.edges = [] := by
  obtain ⟨errors, rfl⟩ := Candidate.build_eq_ok built
  exact Draft.graph_addItems Draft.isDraftOf_addNode none _ _ ⟨rfl, rfl, rfl⟩

/-- Every node of a built candidate is found under its own path. -/
theorem Candidate.isKeyed_of_build {module : Path} {version : Version} {source : Source} {c : Candidate}
    (built : Candidate.build module version source = .ok c) : c.graph.IsKeyed := by
  obtain ⟨errors, rfl⟩ := Candidate.build_eq_ok built
  exact Draft.graph_addItems ModuleGraph.isKeyed_addNode none _ _ fun path n found => nomatch found

/-- What expands other nodes is a top-level declaration. -/
theorem Candidate.source_of_build {module : Path} {version : Version} {source : Source} {c : Candidate}
    (wellFormed : source.IsWellFormed) (built : Candidate.build module version source = .ok c) :
    ∀ r ∈ c.references, r.clause = .of → ∃ name, r.source = c.module.child name := by
  obtain ⟨errors, rfl⟩ := Candidate.build_eq_ok built
  exact Draft.hasOuterSources_addItems wellFormed.blocks ⟨rfl, rfl, rfl⟩ fun r member => nomatch member

end Deductions
