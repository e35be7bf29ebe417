import Deductions.Proofs.Graph.Containment
import Deductions.Proofs.Graph.Listing

namespace Deductions

open scoped List

namespace ModuleGraph

/-- A change of a graph in place: what was written before an error stays written. -/
abbrev Edit := ExceptT GraphError (StateM ModuleGraph)

/-- Lists a node inside `parent`, or at top level, and stores it then. -/
def Edit.addNode (node : Node) (parent : Option Path) : Edit Unit := do
  let g ← get
  if (node.path.strip? g.module).isNone then throw (.foreignNode node.path g.module)
  if node.version ≠ g.version then throw (.versionMismatch node.path g.version node.version)
  if g.contains node.path then throw (.duplicatePath node.path)
  match parent with
  | none => modify fun g => { g with roots := g.roots ++ [node.path] }
  | some path =>
    match g.node? path with
    | none => throw (.nodeNotFound path)
    | some outer =>
      if !outer.kind.mayContain node.kind then
        throw (.illegalNesting path outer.kind node.kind)
      modify fun g =>
        { g with nodes := g.nodes.insert path { outer with children := outer.children ++ [node.path] } }
  modify fun g => { g with nodes := g.nodes.insert node.path node }

def Edit.addEdge (edge : Edge) : Edit Unit := do
  let g ← get
  let source := edge.source.path
  if !g.contains source then throw (.danglingEdge edge.kind source source)
  if edge.isExpansion && (g.expansionOf source).isSome then throw (.multipleExpansion source)
  modify fun g => { g with edges := g.edges ++ [edge] }

def Call.edit : Call → Edit Unit
  | .node n parent => Edit.addNode n parent
  | .edge e => Edit.addEdge e

/-- What a call answers, and the graph that it leaves behind. -/
def execute (g : ModuleGraph) (call : Call) : Except GraphError Unit × ModuleGraph := call.edit.run.run g

/-- The graph that calls leave behind, one after the other. -/
def executeAll (g : ModuleGraph) (calls : List Call) : ModuleGraph :=
  calls.foldl (fun g call => (g.execute call).2) g

/-- What is answered and left behind if a graph is replaced at once or not at all. -/
def outcome (g : ModuleGraph) : Except GraphError ModuleGraph → Except GraphError Unit × ModuleGraph
  | .ok g' => (.ok (), g')
  | .error e => (.error e, g)

theorem Edit.run_get_bind (next : ModuleGraph → Edit Unit) (g : ModuleGraph) :
    (get >>= next).run.run g = (next g).run.run g := rfl

/-- A check that comes before all writing leaves no trace. -/
theorem Edit.run_check {g : ModuleGraph} {edit : Edit Unit} {result : Except GraphError ModuleGraph}
    {refused : Prop} [Decidable refused] {e : GraphError} (rest : edit.run.run g = g.outcome result) :
    (if refused then throw e >>= fun _ : PUnit => edit else edit).run.run g =
      g.outcome (if refused then throw e >>= fun _ : PUnit => result else result) := by
  by_cases stops : refused
  · rw [if_pos stops, if_pos stops]
    rfl
  · rw [if_neg stops, if_neg stops]
    exact rest

theorem Edit.run_addNode (g : ModuleGraph) (node : Node) (parent : Option Path) :
    (Edit.addNode node parent).run.run g = g.outcome (g.addNode node parent) := by
  rw [Edit.addNode, Edit.run_get_bind]
  refine Edit.run_check (Edit.run_check (Edit.run_check ?_))
  cases parent with
  | none => rfl
  | some path =>
    dsimp only
    cases g.node? path with
    | none => rfl
    | some outer => exact Edit.run_check rfl

theorem Edit.run_addEdge (g : ModuleGraph) (edge : Edge) :
    (Edit.addEdge edge).run.run g = g.outcome (g.addEdge edge) := by
  rw [Edit.addEdge, Edit.run_get_bind]
  exact Edit.run_check (Edit.run_check rfl)

/-- A call in place does what it does to a graph that is replaced. -/
theorem execute_eq (g : ModuleGraph) (call : Call) : g.execute call = g.outcome (g.perform call) := by
  cases call with
  | node n parent => exact Edit.run_addNode g n parent
  | edge e => exact Edit.run_addEdge g e

theorem executeAll_eq (g : ModuleGraph) (calls : List Call) : g.executeAll calls = g.run calls := by
  induction calls generalizing g with
  | nil => rfl
  | cons call calls ih =>
    have step : (g.execute call).2 = g.after call := by
      rw [execute_eq, after]
      cases g.perform call <;> rfl
    rw [executeAll, List.foldl_cons, step]
    exact ih _

/-- What calls leave behind: the paths that are listed are those of the nodes, each once, and what is inside
a node was put there after it. -/
structure IsGrown (g : ModuleGraph) : Prop where
  keyed : g.IsKeyed
  listed : g.listed.Perm g.nodes.keys
  ranked : ∃ rank : Path → Nat, ∀ outer inner, g.Nests outer inner → rank outer < rank inner
  sources : ∀ e ∈ g.edges, g.contains e.source.path = true
  single : g.expansionSources.Nodup

/-- Where something may be listed: at top level and inside every node. -/
def places (g : ModuleGraph) : List (Option Path) := none :: g.nodes.keys.map some

theorem nodup_places (g : ModuleGraph) : g.places.Nodup := by
  refine List.nodup_cons.mpr ⟨by simp, ?_⟩
  exact g.nodes.nodup_keys.map fun _ _ => Option.some.inj

theorem listed_eq (g : ModuleGraph) : g.listed = g.places.flatMap g.inside := by
  have children : g.nodes.values.flatMap Node.children = g.nodes.keys.flatMap fun path => g.inside (some path) := by
    rw [SortedMap.values, SortedMap.keys, List.flatMap_map, List.flatMap_map]
    refine List.flatMap_congr fun entry member => ?_
    have found : g.node? entry.1 = some entry.2 := SortedMap.find?_eq_some_iff.mpr member
    rw [inside, found]
    rfl
  rw [listed, places, List.flatMap_cons, List.flatMap_map, children]
  rfl

theorem mem_places_iff {g : ModuleGraph} {place : Option Path} :
    place ∈ g.places ↔ ∀ path ∈ place, g.contains path = true := by
  cases place with
  | none => simp [places]
  | some path => simp [places, contains, SortedMap.contains_iff]

theorem mem_listed_iff {g : ModuleGraph} {path : Path} : path ∈ g.listed ↔ ∃ place, path ∈ g.inside place := by
  rw [listed_eq, List.mem_flatMap]
  refine exists_congr fun place => and_iff_right_of_imp fun member => mem_places_iff.mpr ?_
  rintro outer rfl
  exact contains_of_mem_inside member

theorem IsGrown.mem_listed_iff {g : ModuleGraph} (grown : g.IsGrown) {path : Path} :
    path ∈ g.listed ↔ g.contains path = true := by
  rw [grown.listed.mem_iff, contains, SortedMap.contains_iff]

section

variable {g g' : ModuleGraph} {node : Node} {parent : Option Path} (added : g.addNode node parent = .ok g')
include added

theorem perm_keys_addNode : g'.nodes.keys.Perm (node.path :: g.nodes.keys) := by
  have fresh : node.path ∉ g.nodes.keys := by
    rw [← SortedMap.contains_iff]
    exact Bool.eq_false_iff.mp (addNode_accepts added).2.2.1
  refine (List.perm_ext_iff_of_nodup g'.nodes.nodup_keys (List.nodup_cons.mpr ⟨fresh, g.nodes.nodup_keys⟩)).mpr ?_
  intro path
  rw [List.mem_cons, ← SortedMap.contains_iff, ← SortedMap.contains_iff]
  exact contains_addNode added

/-- A node that is added is listed once more than before, and nothing else is. -/
theorem perm_listed_addNode (childless : node.children = []) : g'.listed.Perm (node.path :: g.listed) := by
  obtain ⟨_, _, fresh, storedParent⟩ := addNode_accepts added
  have nothing : g.inside (some node.path) = [] := by
    refine List.eq_nil_iff_forall_not_mem.mpr fun inner member => ?_
    cases fresh.symm.trans (contains_of_mem_inside member)
  have inPlaces : parent ∈ g.places := mem_places_iff.mpr storedParent
  have notItself : some node.path ≠ parent := by
    rintro rfl
    cases fresh.symm.trans (storedParent node.path rfl)
  have places : g'.places.Perm (some node.path :: g.places) :=
    (((perm_keys_addNode added).map some).cons none).trans (.swap ..)
  have once : (g.places.flatMap fun place => if place = parent then [node.path] else []).Perm [node.path] := by
    refine ((List.perm_cons_erase inPlaces).flatMap_right _).trans (.of_eq ?_)
    rw [List.flatMap_cons, if_pos rfl, List.flatMap_eq_nil_iff.mpr fun place member => if_neg ?_]
    · rfl
    · rintro rfl
      exact g.nodup_places.not_mem_erase member
  calc g'.listed
    _ = g'.places.flatMap g'.inside := listed_eq g'
    _ = g'.places.flatMap fun place => g.inside place ++ if place = parent then [node.path] else [] :=
      List.flatMap_congr fun place _ => inside_addNode added childless place
    _ ~ (some node.path :: g.places).flatMap fun place =>
        g.inside place ++ if place = parent then [node.path] else [] := places.flatMap_right _
    _ = g.places.flatMap fun place => g.inside place ++ if place = parent then [node.path] else [] := by
      rw [List.flatMap_cons, nothing, if_neg notItself, List.nil_append, List.nil_append]
    _ ~ g.places.flatMap g.inside ++ g.places.flatMap fun place => if place = parent then [node.path] else [] :=
      (List.flatMap_append_perm ..).symm
    _ ~ g.listed ++ [node.path] := g.listed_eq ▸ once.append_left _
    _ ~ node.path :: g.listed := List.perm_append_singleton ..

theorem IsGrown.addNode (grown : g.IsGrown) (childless : node.children = []) : g'.IsGrown := by
  obtain ⟨_, _, fresh, storedParent⟩ := addNode_accepts added
  have listed : g'.listed.Perm g'.nodes.keys :=
    (perm_listed_addNode added childless).trans ((grown.listed.cons _).trans (perm_keys_addNode added).symm)
  have sameEdges := (addNode_frame added).2.2
  constructor
  case keyed => exact isKeyed_addNode g node parent g' grown.keyed added
  case listed => exact listed
  case ranked =>
    -- the new node ranks after the one around it, and nothing is inside it yet
    obtain ⟨rank, ranked⟩ := grown.ranked
    have other : ∀ path, g.contains path = true → path ≠ node.path := by
      rintro _ stored rfl
      cases fresh.symm.trans stored
    refine ⟨Function.update rank node.path (parent.elim 0 rank + 1), fun outer inner nests => ?_⟩
    rw [Nests, inside_addNode added childless, List.mem_append] at nests
    rcases nests with old | new
    · have storedInner := grown.mem_listed_iff.mp (ModuleGraph.mem_listed_iff.mpr ⟨some outer, old⟩)
      rw [Function.update_of_ne (other outer (contains_of_mem_inside old)),
        Function.update_of_ne (other inner storedInner)]
      exact ranked outer inner old
    · split at new
      next same =>
        subst same
        rw [List.mem_singleton.mp new, Function.update_self,
          Function.update_of_ne (other outer (storedParent outer rfl))]
        exact Nat.lt_succ_self _
      · cases new
  case sources =>
    rw [sameEdges]
    exact fun e member => (contains_addNode added).mpr (.inr (grown.sources e member))
  case single =>
    rw [expansionSources, expansions, sameEdges]
    exact grown.single

end

theorem IsGrown.addEdge {g g' : ModuleGraph} {e : Edge} (grown : g.IsGrown) (added : g.addEdge e = .ok g') :
    g'.IsGrown := by
  have stored := contains_of_addEdge added
  have single := nodup_expansionSources_addEdge added grown.single
  obtain ⟨rfl, _⟩ := addEdge_eq_ok added
  exact
    { keyed := grown.keyed
      listed := grown.listed
      ranked := grown.ranked
      sources := List.forall_mem_append.mpr ⟨grown.sources, List.forall_mem_singleton.mpr stored⟩
      single := single }

theorem IsGrown.perform {g g' : ModuleGraph} {call : Call} (grown : g.IsGrown) (childless : call.IsChildless)
    (accepted : g.perform call = .ok g') : g'.IsGrown := by
  cases call with
  | node n parent => exact grown.addNode accepted childless
  | edge e => exact grown.addEdge accepted

theorem isGrown_empty (module : Path) (version : Version) :
    IsGrown { module := module, version := version } where
  keyed _ _ found := nomatch found
  listed := .nil
  ranked := ⟨fun _ => 0, fun _ _ nests => nomatch nests⟩
  sources _ member := nomatch member
  single := .nil

theorem isGrown_ofCalls (module : Path) (version : Version) {calls : List Call}
    (childless : ∀ call ∈ calls, call.IsChildless) : (ofCalls module version calls).IsGrown :=
  run_induction (isGrown_empty module version) fun call member _ _ grown accepted =>
    grown.perform (childless call member) accepted

namespace IsGrown

variable {g : ModuleGraph} (grown : g.IsGrown)
include grown

theorem not_isEndless : ¬ g.IsEndless := by
  rintro ⟨_, _, path, _, round⟩
  obtain ⟨rank, ranked⟩ := grown.ranked
  have less : ∀ {inner}, Relation.TransGen g.Nests path inner → rank path < rank inner := fun leads => by
    induction leads with
    | single nests => exact ranked _ _ nests
    | tail _ nests ih => exact ih.trans (ranked _ _ nests)
  exact Nat.lt_irrefl _ (less round)

/-- The walk comes to every node: from the outside inwards, since each is listed somewhere. -/
theorem mem_map_path {nodes : List Node} (traverses : g.Traverses g.roots nodes) {path : Path}
    (stored : g.contains path = true) : path ∈ nodes.map Node.path := by
  obtain ⟨rank, ranked⟩ := grown.ranked
  induction order : rank path using Nat.strong_induction_on generalizing path with
  | _ order' ih =>
    refine (traverses.mem_map_path_iff grown.keyed).mpr ⟨?_, stored⟩
    obtain ⟨place, listed⟩ := ModuleGraph.mem_listed_iff.mp (grown.mem_listed_iff.mpr stored)
    cases place with
    | none => exact .inl listed
    | some outer =>
      have met := ih _ (order ▸ ranked outer path listed) (contains_of_mem_inside listed) rfl
      obtain ⟨n, member, same⟩ := List.mem_map.mp met
      obtain ⟨n', found, inside⟩ := nests_iff.mp listed
      have own := (traverses.exists_leads grown.keyed n member).1
      rw [same, found] at own
      cases own
      exact .inr ⟨n, member, inside⟩

theorem perm_values {nodes : List Node} (traverses : g.Traverses g.roots nodes) : nodes.Perm g.nodes.values := by
  have once : g.listed.Nodup := grown.listed.nodup_iff.mpr g.nodes.nodup_keys
  refine traverses.perm_values grown.keyed (traverses.nodup grown.keyed once) fun n member => ?_
  exact grown.mem_map_path traverses (grown.keyed.contains_of_mem member)

end IsGrown

/-- The nodes of a graph are in order: each is listed once, at top level or inside another, and nothing else
is; the walk meets each once, before what is inside it. So are its edges. -/
structure IsConsistent (g : ModuleGraph) : Prop where
  keyed : g.IsKeyed
  listed : ∀ path, g.listed.count path = if g.contains path then 1 else 0
  walk : ∃ nodes, g.walk = some nodes ∧ nodes.Perm g.nodes.values ∧
    ∀ n ∈ nodes, ∀ inner ∈ n.children, [n.path, inner].Sublist (nodes.map Node.path)
  sources : ∀ e ∈ g.edges, g.contains e.source.path = true
  single : g.expansionSources.Nodup

theorem IsGrown.isConsistent {g : ModuleGraph} (grown : g.IsGrown) : g.IsConsistent where
  keyed := grown.keyed
  listed path := by
    rw [grown.listed.count_eq, g.nodes.nodup_keys.count, contains]
    simp only [SortedMap.contains_iff]
  walk := by
    obtain ⟨nodes, walked⟩ := exists_walk grown.not_isEndless
    have traverses := walk_eq_some_iff.mp walked
    refine ⟨nodes, walked, grown.perm_values traverses, fun n member inner inside => ?_⟩
    refine traverses.sublist_path grown.keyed n member inner inside (grown.mem_listed_iff.mp ?_)
    have found := (traverses.exists_leads grown.keyed n member).1
    exact ModuleGraph.mem_listed_iff.mpr ⟨some n.path, nests_iff.mpr ⟨n, found, inside⟩⟩
  sources := grown.sources
  single := grown.single

/-- A graph to which calls add nodes and edges in place is in order after every one of them, and a call that
is refused leaves any graph as it was. -/
theorem executeAll_isConsistent (module : Path) (version : Version) (calls : List Call)
    (childless : ∀ call ∈ calls, call.IsChildless) :
    executeAll { module := module, version := version } calls = ofCalls module version calls ∧
      (ofCalls module version calls).IsConsistent ∧
      ∀ (g g' : ModuleGraph) (call : Call) (e : GraphError),
        g.execute call = (.error e, g') ↔ g.perform call = .error e ∧ g' = g := by
  refine ⟨executeAll_eq _ calls, (isGrown_ofCalls module version childless).isConsistent, fun g g' call e => ?_⟩
  rw [execute_eq]
  cases g.perform call with
  | ok g'' => simp [outcome]
  | error e' => simp [outcome, eq_comm]

/-- The deduction `m.T` is refused once it is there. -/
theorem executeAll_isConsistent_assertingCalls :
    let g := ofCalls (.single "m") (.plain 1 0 0) (assertingCalls "T")
    let outer := (Path.single "m").child "T"
    let again := Call.node { path := outer, version := .plain 1 0 0, kind := .deduction } none
    g.IsConsistent ∧ g.contains (outer.child "C") = true ∧ g.execute again = (.error (.duplicatePath outer), g) := by
  intro g outer again
  have childless : ∀ call ∈ assertingCalls "T", call.IsChildless :=
    List.forall_mem_cons.mpr ⟨rfl, List.forall_mem_singleton.mpr rfl⟩
  obtain ⟨_, consistent, kept⟩ :=
    executeAll_isConsistent (.single "m") (.plain 1 0 0) (assertingCalls "T") childless
  have refused : g.perform again = .error (.duplicatePath outer) := by decide +kernel
  exact ⟨consistent, by decide +kernel, (kept g g again _).mpr ⟨refused, rfl⟩⟩

end ModuleGraph

end Deductions
