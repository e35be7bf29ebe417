import Deductions.Proofs.Compiled
import Deductions.Proofs.Graph.Forest
import Deductions.Proofs.Retag

namespace Deductions

theorem mapM_map_eq {α β γ : Type} (h : α → Option β) (f : β → γ) (l : List α) :
    l.mapM (fun a => (h a).map f) = (l.mapM h).map (List.map f) := by
  induction l with
  | nil => rfl
  | cons a l ih =>
    rw [List.mapM_cons, List.mapM_cons, ih]
    cases h a with
    | none => rfl
    | some b => cases l.mapM h <;> rfl

variable {f : Version → Version}

namespace ModuleGraph

variable (g : ModuleGraph)

theorem node?_retag (path : Path) : (g.retag f).node? path = (g.node? path).map (Node.retag f) :=
  SortedMap.find?_mapValues ..

@[simp] theorem contains_retag (path : Path) : (g.retag f).contains path = g.contains path :=
  SortedMap.contains_mapValues ..

@[simp] theorem module_retag : (g.retag f).module = g.module := rfl

/-- A node of the version of the graph is added or refused as it is under other tags. -/
theorem addNode_retag {n : Node} (atVersion : n.version = g.version) (parent : Option Path) :
    (g.retag f).addNode (n.retag f) parent = (g.addNode n parent).map (ModuleGraph.retag f) := by
  have atVersion' : (n.retag f).version = (g.retag f).version := congrArg f atVersion
  simp only [addNode, bind, Except.bind, throw, throwThe, MonadExceptOf.throw, pure, Except.pure, module_retag,
    Node.path_retag, Node.kind_retag, contains_retag, atVersion, atVersion', ne_eq, not_true_eq_false, if_false]
  by_cases foreign : (n.path.strip? g.module).isNone = true
  · rw [if_pos foreign, if_pos foreign]
    rfl
  rw [if_neg foreign, if_neg foreign]
  by_cases taken : g.contains n.path = true
  · rw [if_pos taken, if_pos taken]
    rfl
  rw [if_neg taken, if_neg taken]
  cases parent with
  | none => simp only [Except.map, ModuleGraph.retag, SortedMap.mapValues_insert]
  | some path =>
    simp only [node?_retag]
    cases g.node? path with
    | none => rfl
    | some outer =>
      by_cases nests : outer.kind.mayContain n.kind = true
      · simp only [Option.map_some, Node.kind_retag, nests, Bool.not_true, Bool.false_eq_true, if_false,
          Except.map, ModuleGraph.retag, SortedMap.mapValues_insert]
        rfl
      · simp only [Option.map_some, Node.kind_retag, nests, Bool.not_false, if_true, Except.map]

theorem visit_retag (depth : Nat) (path : Path) :
    (g.retag f).visit depth path = (g.visit depth path).map (List.map (Node.retag f)) := by
  induction depth generalizing path with
  | zero =>
    rw [visit, visit, node?_retag]
    cases g.node? path <;> rfl
  | succ depth ih =>
    rw [visit, visit, node?_retag]
    cases g.node? path with
    | none => rfl
    | some n =>
      have inner : n.children.mapM ((g.retag f).visit depth) =
          (n.children.mapM (g.visit depth)).map (List.map (List.map (Node.retag f))) := by
        rw [funext ih, mapM_map_eq]
      have children : (n.retag f).children = n.children := rfl
      simp only [Option.map_some, children, inner]
      cases n.children.mapM (g.visit depth) with
      | none => rfl
      | some trees => simp [List.map_flatten]

theorem walk_retag : (g.retag f).walk = g.walk.map (List.map (Node.retag f)) := by
  have size : (g.retag f).nodes.size = g.nodes.size := by
    simp [ModuleGraph.retag, SortedMap.size, SortedMap.mapValues]
  have roots : g.roots.mapM ((g.retag f).visit g.nodes.size) =
      (g.roots.mapM (g.visit g.nodes.size)).map (List.map (List.map (Node.retag f))) := by
    rw [funext (g.visit_retag g.nodes.size), mapM_map_eq]
  rw [walk, walk, size]
  have same : (g.retag f).roots = g.roots := rfl
  rw [same, roots]
  cases g.roots.mapM (g.visit g.nodes.size) with
  | none => rfl
  | some trees => simp [List.map_flatten]

end ModuleGraph

def Candidate.retag (f : Version → Version) (c : Candidate) : Candidate := { c with graph := c.graph.retag f }

namespace Draft

def retag (f : Version → Version) (d : Draft) : Draft := { d with graph := d.graph.retag f }

theorem narrate_retag (n : Node) : narrate (n.retag f) = ((narrate n).1.retag f, (narrate n).2) := by
  have field : (n.retag f).field? "narration" = n.field? "narration" := rfl
  rw [narrate, narrate, field, Node.kind_retag, Node.path_retag]
  split
  · cases n.field? "narration" with
    | none => rfl
    | some text =>
      cases parsed : parseNarration n.path text with
      | error e => simp only [parsed]
      | ok steps =>
        simp only [parsed]
        rfl
  · rfl

theorem describe_retag (d : Draft) (header : Header) (fields : List Field) (scope : Path) :
    (d.retag f).describe header fields scope =
      ((d.describe header fields scope).1.retag f, (d.describe header fields scope).2.retag f) := by
  have plain : plainNode (d.retag f).graph.version header (scope.child header.name) fields =
      (plainNode d.graph.version header (scope.child header.name) fields).retag f := rfl
  have errors : ∀ n : Node, (n.retag f).fieldErrors = n.fieldErrors := fun _ => rfl
  simp only [describe, plain, narrate_retag, errors]
  rfl

theorem version_describe (d : Draft) (header : Header) (fields : List Field) (scope : Path) :
    (d.describe header fields scope).1.version = (d.describe header fields scope).2.graph.version := by
  obtain ⟨narration, same⟩ := narrate_eq (plainNode d.graph.version header (scope.child header.name) fields)
  have node : (d.describe header fields scope).1 =
      { plainNode d.graph.version header (scope.child header.name) fields with narration := narration } := same
  rw [node]
  rfl

mutual

theorem addItem_retag (parent : Option Path) : ∀ (d : Draft) (i : Item),
    addItem parent (d.retag f) i = (addItem parent d i).retag f
  | d, .field _ => by rw [addItem, addItem]
  | d, .block header items => by
    rw [addItem, addItem]
    have module : (d.retag f).graph.module = d.graph.module := rfl
    simp only [module, describe_retag]
    have atVersion := version_describe d header (items.filterMap Item.field?) (parent.getD d.graph.module)
    generalize d.describe header (items.filterMap Item.field?) (parent.getD d.graph.module) = described at atVersion
    obtain ⟨node, d'⟩ := described
    have added : (d'.retag f).graph.addNode (node.retag f) parent =
        (d'.graph.addNode node parent).map (ModuleGraph.retag f) :=
      ModuleGraph.addNode_retag d'.graph atVersion parent
    simp only [added]
    cases d'.graph.addNode node parent with
    | error e => rfl
    | ok graph => exact addItems_retag _ { d' with graph := graph } items

theorem addItems_retag (parent : Option Path) : ∀ (d : Draft) (items : List Item),
    addItems parent (d.retag f) items = (addItems parent d items).retag f
  | d, [] => by rw [addItems, addItems]
  | d, i :: items => by rw [addItems, addItems, addItem_retag parent d i, addItems_retag parent _ items]

end

end Draft

theorem Candidate.build_retag (module : Path) (version : Version) (source : Source) :
    Candidate.build module (f version) source = (Candidate.build module version source).map (Candidate.retag f) := by
  have items : ∀ errors items, Draft.addItems none ⟨{ module := module, version := f version }, [], errors⟩ items =
      (Draft.addItems none ⟨{ module := module, version := version }, [], errors⟩ items).retag f :=
    fun errors => Draft.addItems_retag none ⟨{ module := module, version := version }, [], errors⟩
  simp only [build, items]
  have errors : ∀ d : Draft, (d.retag f).errors = d.errors := fun _ => rfl
  simp only [errors]
  split <;> rfl

/-- A source that builds at one version builds at every other. -/
theorem ModuleSource.build_retag {path : Path} {version : Version} {text : String} {c : Candidate}
    (built : ModuleSource.build ⟨path, version, text⟩ = .ok c) :
    ModuleSource.build ⟨path, f version, text⟩ = .ok (c.retag f) := by
  obtain ⟨source, parsed, build⟩ := build_eq_ok_iff.mp built
  refine build_eq_ok_iff.mpr ⟨source, parsed, ?_⟩
  have retagged : Candidate.build path (f version) source =
      (Candidate.build path version source).map (Candidate.retag f) := Candidate.build_retag path version source
  rw [retagged, show Candidate.build path version source = .ok c from build, Except.map]

end Deductions
