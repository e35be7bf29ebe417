import Deductions.Proofs.Graph.Forest
import Deductions.Proofs.Source.Outline

namespace Deductions

/-- The names in a clause of a block. -/
def Clauses.names (c : Clauses) : Clause → List Path
  | .of => c.of
  | .on => c.on
  | .versus => c.versus
  | .contra => c.contra

def Clause.all : List Clause := [.of, .on, .versus, .contra]

/-- The steps of a narration, where there is one that can be read. -/
def readNarration (kind : NodeKind) (path : Path) (fields : SortedMap String String) :
    Option (List NarrationStep) :=
  if kind.isDeductive then (fields.find? "narration").bind fun text => (parseNarration path text).toOption
  else none

namespace PlacedBlock

variable (module : Path) (version : Version) (p : PlacedBlock)

/-- Where the names of a clause are looked up first. -/
def scopeFor : Clause → Path
  | .of | .on => module
  | .versus | .contra => scopeOf module p.around

/-- The values of the fields by their names. -/
def fields : SortedMap String String := SortedMap.ofList (p.block.fields.map fun f => (f.name, f.value.text))

/-- The node of the block. -/
def node : Node where
  path := p.path module
  version := version
  kind := p.block.header.kind
  fields := p.fields
  children := p.inner.map (path module)
  narration := readNarration p.block.header.kind (p.path module) p.fields
  wolog := p.block.header.clauses.wolog

/-- The node of the block before anything is put inside. -/
def leaf : Node := { p.node module version with children := [] }

/-- What comes of the names in a clause of the block. -/
def clause (c : Clause) : List Reference × List BuildError :=
  buildClause c (p.path module) (p.scopeFor module c) p.block.header.span [] (p.block.header.clauses.names c)

def references : List Reference := Clause.all.flatMap fun c => (p.clause module c).1

/-- All that is wrong with the block by itself. -/
def errors : List BuildError :=
  Draft.bodyErrors p.block.header.kind (p.path module) p.block.fields ++
    (Draft.narrate (Draft.plainNode version p.block.header (p.path module) p.block.fields)).2 ++
    (p.node module version).fieldErrors.map .graph ++ Clause.all.flatMap fun c => (p.clause module c).2

end PlacedBlock

namespace Draft

/-- A narration that cannot be read is left out. -/
theorem narrate_fst {n : Node} (plain : n.narration = none) :
    (narrate n).1 = { n with narration := readNarration n.kind n.path n.fields } := by
  have unread : n = { n with narration := none } := by rw [← plain]
  rw [narrate, readNarration]
  split
  · rw [Node.field?]
    cases n.fields.find? "narration" with
    | none => exact unread
    | some text =>
      dsimp only [Option.bind_some]
      cases parseNarration n.path text with
      | ok steps => rfl
      | error e => exact unread
  · exact unread

variable {module : Path} {version : Version}

theorem describe_eq {d : Draft} (sameModule : d.graph.module = module) (sameVersion : d.graph.version = version)
    (p : PlacedBlock) : d.describe p.block.header p.block.fields (scopeOf module p.around) =
      (p.leaf module version,
        { d with
          references := d.references ++ p.references module
          errors := d.errors ++ p.errors module version }) := by
  subst sameModule sameVersion
  have node : (narrate (plainNode d.graph.version p.block.header (p.path d.graph.module) p.block.fields)).1 =
      p.leaf d.graph.module d.graph.version := narrate_fst rfl
  have fieldErrors : (narrate (plainNode d.graph.version p.block.header (p.path d.graph.module)
      p.block.fields)).1.fieldErrors = (p.node d.graph.module d.graph.version).fieldErrors := by
    rw [node]
    rfl
  refine Prod.ext node ?_
  simp only [PlacedBlock.references, PlacedBlock.errors, Clause.all, List.flatMap_cons, List.flatMap_nil,
    List.append_nil, ← List.append_assoc]
  rw [← fieldErrors]
  simp only [describe, report, clause, PlacedBlock.clause, ← List.append_assoc]
  rfl

end Draft

/-- The graph got the nodes `nodes`, of which those at the paths `names` stand directly inside `parent`.
Other nodes stay as they are. -/
structure ModuleGraph.Grows (g g' : ModuleGraph) (parent : Option Path) (names : List Path)
    (nodes : List Node) : Prop where
  module : g'.module = g.module
  version : g'.version = g.version
  roots : g'.roots = g.roots ++ if none = parent then names else []
  kept : ∀ path n, g.node? path = some n →
    g'.node? path = some { n with children := n.children ++ if some path = parent then names else [] }
  new : ∀ n ∈ nodes, g'.node? n.path = some n
  origin : ∀ path, g'.contains path = true → g.contains path = true ∨ ∃ n ∈ nodes, n.path = path

namespace ModuleGraph

theorem Grows.refl (g : ModuleGraph) (parent : Option Path) : g.Grows g parent [] [] where
  module := rfl
  version := rfl
  roots := by simp
  kept path n found := by simpa using found
  new _ member := nomatch member
  origin _ stored := .inl stored

section

variable {g g' g'' : ModuleGraph} {parent : Option Path} {names names' : List Path} {nodes nodes' : List Node}

/-- One growth after the other, in the same place. -/
theorem Grows.append (first : g.Grows g' parent names nodes) (later : g'.Grows g'' parent names' nodes')
    (apart : ∀ n ∈ nodes, some n.path ≠ parent) :
    g.Grows g'' parent (names ++ names') (nodes ++ nodes') where
  module := later.module.trans first.module
  version := later.version.trans first.version
  roots := by
    rw [later.roots, first.roots]
    split <;> simp
  kept path n found := by
    rw [later.kept path _ (first.kept path n found)]
    split <;> simp
  new n member := by
    rcases List.mem_append.mp member with old | new
    · rw [later.kept n.path n (first.new n old), if_neg (apart n old), List.append_nil]
    · exact later.new n new
  origin path stored := by
    rcases later.origin path stored with before | ⟨n, member, same⟩
    · rcases first.origin path before with before | ⟨n, member, same⟩
      · exact .inl before
      · exact .inr ⟨n, List.mem_append_left _ member, same⟩
    · exact .inr ⟨n, List.mem_append_right _ member, same⟩

/-- A node comes first, then all that is inside it. -/
theorem Grows.nest {node : Node} (added : g.Grows g' parent [node.path] [node])
    (inside : g'.Grows g'' (some node.path) names nodes) (childless : node.children = [])
    (fresh : g.contains node.path = false) :
    g.Grows g'' parent [node.path] ({ node with children := names } :: nodes) where
  module := inside.module.trans added.module
  version := inside.version.trans added.version
  roots := by rw [inside.roots, added.roots, if_neg (Option.some_ne_none _).symm, List.append_nil]
  kept path n found := by
    have other : some path ≠ some node.path := by
      rintro same
      cases same
      rw [contains_iff.mpr ⟨n, found⟩] at fresh
      cases fresh
    rw [inside.kept path _ (added.kept path n found), if_neg other, List.append_nil]
  new n member := by
    rcases List.mem_cons.mp member with rfl | member
    · rw [inside.kept node.path node (added.new node List.mem_cons_self), if_pos rfl, childless,
        List.nil_append]
    · exact inside.new n member
  origin path stored := by
    rcases inside.origin path stored with before | ⟨n, member, same⟩
    · rcases added.origin path before with before | ⟨n, member, same⟩
      · exact .inl before
      · cases List.mem_singleton.mp member
        exact .inr ⟨_, List.mem_cons_self, same⟩
    · exact .inr ⟨n, List.mem_cons_of_mem _ member, same⟩

end

section

variable {g g' : ModuleGraph} {node : Node} {parent : Option Path}

theorem exists_addNode (within : (node.path.strip? g.module).isSome = true) (atVersion : node.version = g.version)
    (fresh : g.contains node.path = false)
    (nests : ∀ path ∈ parent, ∃ n, g.node? path = some n ∧ n.kind.mayContain node.kind = true) :
    ∃ g', g.addNode node parent = .ok g' := by
  have within : (node.path.strip? g.module).isNone = false := by simpa using within
  cases parent with
  | none => exact ⟨_, by
    simp [addNode, within, atVersion, fresh, pure, Except.pure]
    rfl⟩
  | some path =>
    obtain ⟨n, found, nests⟩ := nests path rfl
    exact ⟨_, by
      simp [addNode, within, atVersion, fresh, found, nests, pure, Except.pure]
      rfl⟩

theorem grows_addNode (added : g.addNode node parent = .ok g') (childless : node.children = []) :
    g.Grows g' parent [node.path] [node] where
  module := (addNode_frame added).1
  version := (addNode_frame added).2.1
  roots := inside_addNode added childless none
  kept path n found := by
    obtain ⟨n', found'⟩ := contains_iff.mp ((contains_addNode added).mpr (.inr (contains_iff.mpr ⟨n, found⟩)))
    have fresh := (addNode_accepts added).2.2.1
    rcases node?_addNode added found' with ⟨rfl, rfl⟩ | ⟨old, before, same⟩
    · rw [contains_iff.mpr ⟨n, found⟩] at fresh
      cases fresh
    · cases before.symm.trans found
      have children := inside_addNode added childless (some path)
      rw [inside, inside, found', found] at children
      have children : n'.children = n.children ++ if some path = parent then [node.path] else [] := children
      rw [found', same, children]
  new n member := by
    cases List.mem_singleton.mp member
    obtain ⟨n', found⟩ := contains_iff.mp ((contains_addNode added).mpr (.inl rfl))
    rcases node?_addNode added found with ⟨_, rfl⟩ | ⟨old, before, _⟩
    · exact found
    · have fresh := (addNode_accepts added).2.2.1
      rw [contains_iff.mpr ⟨old, before⟩] at fresh
      cases fresh
  origin path stored := by
    rcases (contains_addNode added).mp stored with rfl | before
    · exact .inr ⟨node, List.mem_cons_self, rfl⟩
    · exact .inl before

end

end ModuleGraph

/-- The block is in order, wherever it stands. -/
structure Block.IsTidy (b : Block) : Prop where
  header : b.header.IsWellFormed
  distinct : HasDistinctNames b.items
  items : Item.AreWellFormed b.header.kind b.items

theorem isTidy_of_mem_blocksIn {outer : NodeKind} {items : List Item} (wellFormed : Item.AreWellFormed outer items)
    {b : Block} (member : b ∈ blocksIn items) : outer.mayContain b.header.kind = true ∧ b.IsTidy := by
  obtain ⟨i, inside, isBlock⟩ := List.mem_filterMap.mp member
  have wellFormed := Item.areWellFormed_iff.mp wellFormed i inside
  cases i with
  | field f => cases isBlock
  | block header items =>
    cases isBlock
    obtain ⟨inside, header, distinct, items⟩ := wellFormed
    exact ⟨inside, header, distinct, items⟩

/-- Nothing stands in the way of the blocks at their place: what they are to stand in is there and may
contain them, and no node has the path of one of them or lies inside it. -/
structure ModuleGraph.HasRoom (g : ModuleGraph) (around blocks : List Block) : Prop where
  holder : ∀ path ∈ placeOf g.module around, ∃ n, g.node? path = some n ∧
    ∀ b ∈ blocks, n.kind.mayContain b.header.kind = true
  distinct : (blocks.map fun b => b.header.name).Nodup
  fresh : ∀ b ∈ blocks, ∀ path, g.contains path = true →
    path.startsWith ((scopeOf g.module around).child b.header.name) = false

namespace ModuleGraph

theorem HasRoom.left {g : ModuleGraph} {around blocks blocks' : List Block}
    (room : g.HasRoom around (blocks ++ blocks')) : g.HasRoom around blocks where
  holder path place := by
    obtain ⟨n, found, nests⟩ := room.holder path place
    exact ⟨n, found, fun b member => nests b (List.mem_append_left _ member)⟩
  distinct := by
    have distinct := room.distinct
    rw [List.map_append] at distinct
    exact (List.nodup_append.mp distinct).1
  fresh b member := room.fresh b (List.mem_append_left _ member)

/-- Where there is room for a block, its node is not refused. -/
theorem HasRoom.exists_addNode {g : ModuleGraph} {around : List Block} {b : Block} (room : g.HasRoom around [b]) :
    ∃ g', g.addNode (PlacedBlock.leaf g.module g.version ⟨b, around⟩)
      (placeOf g.module around) = .ok g' := by
  refine ModuleGraph.exists_addNode (PlacedBlock.isSome_strip?_path g.module ⟨b, around⟩) rfl ?_ ?_
  · refine Bool.eq_false_iff.mpr fun stored => ?_
    have outside := room.fresh b List.mem_cons_self _ stored
    exact nomatch outside.symm.trans (Path.startsWith_refl _)
  · intro path place
    obtain ⟨n, found, nests⟩ := room.holder path place
    exact ⟨n, found, nests b List.mem_cons_self⟩

end ModuleGraph

namespace Draft

/-- The draft took the blocks and all inside them, with their references and with all that is wrong with
each by itself. -/
structure Takes (d d' : Draft) (around blocks : List Block) : Prop where
  graph : d.graph.Grows d'.graph (placeOf d.graph.module around)
    (blocks.map fun b => (scopeOf d.graph.module around).child b.header.name)
    ((blocks.flatMap fun b => PlacedBlock.below ⟨b, around⟩).map (PlacedBlock.node d.graph.module d.graph.version))
  references : d'.references = d.references ++
    (blocks.flatMap fun b => PlacedBlock.below ⟨b, around⟩).flatMap (PlacedBlock.references d.graph.module)
  errors : d'.errors = d.errors ++ (blocks.flatMap fun b => PlacedBlock.below ⟨b, around⟩).flatMap
    (PlacedBlock.errors d.graph.module d.graph.version)

theorem Takes.refl (d : Draft) (around : List Block) : d.Takes d around [] where
  graph := .refl _ _
  references := by simp
  errors := by simp

theorem Takes.append {d d' d'' : Draft} {around blocks blocks' : List Block} (first : d.Takes d' around blocks)
    (later : d'.Takes d'' around blocks') : d.Takes d'' around (blocks ++ blocks') where
  graph := by
    have graph := later.graph
    rw [first.graph.module, first.graph.version] at graph
    rw [List.map_append, List.flatMap_append, List.map_append]
    refine first.graph.append graph fun n member same => ?_
    obtain ⟨p, inside, rfl⟩ := List.mem_map.mp member
    obtain ⟨b, _, inside⟩ := List.mem_flatMap.mp inside
    exact PlacedBlock.ne_scopeOf d.graph.module inside (eq_of_placeOf same.symm)
  references := by
    rw [later.references, first.references, first.graph.module, List.flatMap_append, List.flatMap_append,
      List.append_assoc]
  errors := by
    rw [later.errors, first.errors, first.graph.module, first.graph.version, List.flatMap_append,
      List.flatMap_append, List.append_assoc]

/-- A block is taken by its node, and then by all that is inside. -/
theorem Takes.nest {d d' : Draft} {g : ModuleGraph} {around : List Block} {b : Block}
    (added : d.graph.addNode (PlacedBlock.leaf d.graph.module d.graph.version ⟨b, around⟩)
      (placeOf d.graph.module around) = .ok g)
    (inside : Takes { d with
      graph := g
      references := d.references ++ PlacedBlock.references d.graph.module ⟨b, around⟩
      errors := d.errors ++ PlacedBlock.errors d.graph.module d.graph.version ⟨b, around⟩ } d' (b :: around) b.inner) :
    d.Takes d' around [b] := by
  have grows := ModuleGraph.grows_addNode added rfl
  have inner : (b.inner.flatMap fun b' => PlacedBlock.below ⟨b', b :: around⟩) =
      (PlacedBlock.inner ⟨b, around⟩).flatMap PlacedBlock.below := (List.flatMap_map ..).symm
  have below : ([b].flatMap fun b => PlacedBlock.below ⟨b, around⟩) =
      ⟨b, around⟩ :: b.inner.flatMap fun b' => PlacedBlock.below ⟨b', b :: around⟩ := by
    rw [List.flatMap_singleton, PlacedBlock.below_eq, inner]
  constructor
  case graph =>
    have graph := inside.graph
    dsimp only at graph
    rw [grows.module, grows.version] at graph
    have nested := grows.nest graph rfl (ModuleGraph.addNode_accepts added).2.2.1
    have node : { PlacedBlock.leaf d.graph.module d.graph.version ⟨b, around⟩ with
        children := b.inner.map fun b' => (scopeOf d.graph.module (b :: around)).child b'.header.name } =
        PlacedBlock.node d.graph.module d.graph.version ⟨b, around⟩ := by
      rw [PlacedBlock.node, PlacedBlock.inner, List.map_map]
      rfl
    rw [below, List.map_cons, List.map_nil, List.map_cons, ← node]
    exact nested
  case references =>
    rw [inside.references, below, List.flatMap_cons, List.append_assoc, grows.module]
  case errors =>
    rw [inside.errors, below, List.flatMap_cons, List.append_assoc, grows.module, grows.version]

/-- Blocks that were taken leave room for further ones of other names. -/
theorem Takes.hasRoom {d d' : Draft} {around blocks blocks' : List Block} (taken : d.Takes d' around blocks)
    (room : d.graph.HasRoom around (blocks ++ blocks')) : d'.graph.HasRoom around blocks' := by
  constructor
  case holder =>
    rw [taken.graph.module]
    intro path place
    obtain ⟨n, found, nests⟩ := room.holder path place
    exact ⟨_, taken.graph.kept path n found, fun b member => nests b (List.mem_append_right _ member)⟩
  case distinct =>
    have distinct := room.distinct
    rw [List.map_append] at distinct
    exact (List.nodup_append.mp distinct).2.1
  case fresh =>
    rw [taken.graph.module]
    intro b member path stored
    rcases taken.graph.origin path stored with before | ⟨n, isNew, rfl⟩
    · exact room.fresh b (List.mem_append_right _ member) path before
    · obtain ⟨p, inside, rfl⟩ := List.mem_map.mp isNew
      obtain ⟨b', member', inside⟩ := List.mem_flatMap.mp inside
      -- two blocks of one place have different names
      refine Bool.eq_false_iff.mpr fun begins => ?_
      have same := Path.eq_of_startsWith_of_length begins
        (PlacedBlock.startsWith_of_mem_below d.graph.module inside) (by simp [PlacedBlock.path])
      have distinct := room.distinct
      rw [List.map_append] at distinct
      have names : b.header.name = b'.header.name := by
        have segments : (scopeOf d.graph.module around).segments ++ [b.header.name] =
          (scopeOf d.graph.module around).segments ++ [b'.header.name] := congrArg Path.segments same
        simpa using segments
      exact (List.nodup_append.mp distinct).2.2 _ (List.mem_map_of_mem member') _ (List.mem_map_of_mem member)
        names.symm

/-- A new node has room for what is inside its block. -/
theorem hasRoom_addNode {g g' : ModuleGraph} {around : List Block} {b : Block} (tidy : b.IsTidy)
    (added : g.addNode (PlacedBlock.leaf g.module g.version ⟨b, around⟩)
      (placeOf g.module around) = .ok g') (fresh : ∀ path, g.contains path = true →
      path.startsWith ((scopeOf g.module around).child b.header.name) = false) :
    g'.HasRoom (b :: around) b.inner := by
  have grows := ModuleGraph.grows_addNode added rfl
  obtain ⟨_, ⟨_, distinct⟩, wellFormed⟩ := tidy
  constructor
  case holder =>
    rw [grows.module]
    rintro _ ⟨⟩
    exact ⟨_, grows.new _ List.mem_cons_self, fun b' member => (isTidy_of_mem_blocksIn wellFormed member).1⟩
  case distinct => exact blockNames_eq b.items ▸ distinct
  case fresh =>
    rw [grows.module]
    intro b' _ path stored
    refine Bool.eq_false_iff.mpr fun begins => ?_
    have around := Path.startsWith_trans begins (Path.startsWith_child _ _)
    rcases grows.origin path stored with before | ⟨n, isNew, rfl⟩
    · rw [scopeOf, fresh path before] at around
      cases around
    · cases List.mem_singleton.mp isNew
      have shorter := Path.length_le_of_startsWith begins
      rw [Path.length_child] at shorter
      exact Nat.not_succ_le_self _ shorter

mutual

/-- A tidy block is taken where there is room for it. -/
theorem takes_addItem : ∀ (i : Item) (d : Draft) (around : List Block), (∀ b ∈ blocksIn [i], b.IsTidy) →
    d.graph.HasRoom around (blocksIn [i]) →
    d.Takes (addItem (placeOf d.graph.module around) d i) around (blocksIn [i])
  | .field _, d, around, _, _ => .refl d around
  | .block header items, d, around, tidy, room => by
    have tidy : (⟨header, items⟩ : Block).IsTidy := tidy _ List.mem_cons_self
    have described := describe_eq (d := d) rfl rfl ⟨⟨header, items⟩, around⟩
    obtain ⟨g, added⟩ := room.exists_addNode
    have inside := takes_addItems items { d with
      graph := g
      references := d.references ++ PlacedBlock.references d.graph.module ⟨⟨header, items⟩, around⟩
      errors := d.errors ++ PlacedBlock.errors d.graph.module d.graph.version ⟨⟨header, items⟩, around⟩ }
      (⟨header, items⟩ :: around) (fun b member => (isTidy_of_mem_blocksIn tidy.items member).2)
      (hasRoom_addNode tidy added (room.fresh _ List.mem_cons_self))
    rw [addItem, getD_placeOf]
    dsimp only [Block.fields] at described ⊢
    rw [described]
    dsimp only at inside ⊢
    rw [(ModuleGraph.addNode_frame added).1] at inside
    rw [added]
    exact inside.nest added

theorem takes_addItems : ∀ (items : List Item) (d : Draft) (around : List Block),
    (∀ b ∈ blocksIn items, b.IsTidy) → d.graph.HasRoom around (blocksIn items) →
    d.Takes (addItems (placeOf d.graph.module around) d items) around (blocksIn items)
  | [], d, around, _, _ => .refl d around
  | i :: items, d, around, tidy, room => by
    have split : blocksIn (i :: items) = blocksIn [i] ++ blocksIn items := List.filterMap_append (l := [i])
    rw [split] at tidy room ⊢
    have first := takes_addItem i d around (fun b member => tidy b (List.mem_append_left _ member)) room.left
    have later := takes_addItems items _ around (fun b member => tidy b (List.mem_append_right _ member))
      (first.hasRoom room)
    rw [first.graph.module] at later
    exact first.append later

end

end Draft

end Deductions
