import Deductions.Proofs.Graph.Forest

namespace Deductions

namespace ModuleGraph

/-- A call that adds to a graph. -/
inductive Call where
  | node (node : Node) (parent : Option Path)
  | edge (edge : Edge)

/-- Whether a node that the call adds has nothing inside yet. -/
def Call.IsChildless : Call → Prop
  | .node n _ => n.children = []
  | .edge _ => True

def perform (g : ModuleGraph) : Call → Except GraphError ModuleGraph
  | .node n parent => g.addNode n parent
  | .edge e => g.addEdge e

/-- The graph after a call; one that is refused leaves it as it was. -/
def after (g : ModuleGraph) (call : Call) : ModuleGraph :=
  match g.perform call with
  | .ok g' => g'
  | .error _ => g

/-- The graph after calls, one after the other. -/
def run (g : ModuleGraph) (calls : List Call) : ModuleGraph := calls.foldl after g

/-- The graph that calls make of a module without nodes. -/
def ofCalls (module : Path) (version : Version) (calls : List Call) : ModuleGraph :=
  run { module := module, version := version } calls

/-- What holds of a graph and stays with every call that is accepted holds after all calls. -/
theorem run_induction {motive : ModuleGraph → Prop} {g : ModuleGraph} {calls : List Call} (start : motive g)
    (step : ∀ call ∈ calls, ∀ g g', motive g → g.perform call = .ok g' → motive g') : motive (g.run calls) := by
  induction calls generalizing g with
  | nil => exact start
  | cons call calls ih =>
    refine ih ?_ fun later member => step later (List.mem_cons_of_mem _ member)
    unfold after
    split
    next g' accepted => exact step call List.mem_cons_self g g' start accepted
    · exact start

theorem module_perform {g g' : ModuleGraph} {call : Call} (accepted : g.perform call = .ok g') :
    g'.module = g.module := by
  cases call with
  | node n parent => exact (addNode_frame accepted).1
  | edge e =>
    obtain ⟨rfl, _⟩ := addEdge_eq_ok accepted
    rfl

theorem isKeyed_perform {g g' : ModuleGraph} {call : Call} (keyed : g.IsKeyed)
    (accepted : g.perform call = .ok g') : g'.IsKeyed := by
  cases call with
  | node n parent => exact isKeyed_addNode g n parent g' keyed accepted
  | edge e =>
    obtain ⟨rfl, _⟩ := addEdge_eq_ok accepted
    exact keyed

/-- Where a call puts a node: the parent, or none at top level, and the path of the node. -/
def placement? (g : ModuleGraph) : Call → Option (Option Path × Path)
  | .node n parent =>
    match g.addNode n parent with
    | .ok _ => some (parent, n.path)
    | .error _ => none
  | .edge _ => none

/-- Where the calls put nodes. -/
def placements (g : ModuleGraph) : List Call → List (Option Path × Path)
  | [] => []
  | call :: calls => (g.placement? call).toList ++ (g.after call).placements calls

/-- The paths that are put in one place. -/
def putIn (place : Option Path) (placements : List (Option Path × Path)) : List Path :=
  (placements.filter fun p => p.1 = place).map Prod.snd

theorem mem_putIn {place : Option Path} {placements : List (Option Path × Path)} {path : Path} :
    path ∈ putIn place placements ↔ (place, path) ∈ placements := by
  simp only [putIn, List.mem_map, List.mem_filter, decide_eq_true_eq]
  constructor
  · rintro ⟨p, ⟨member, rfl⟩, rfl⟩
    exact member
  · exact fun member => ⟨_, ⟨member, rfl⟩, rfl⟩

theorem inside_after {g : ModuleGraph} {call : Call} (childless : call.IsChildless) (place : Option Path) :
    (g.after call).inside place = g.inside place ++ putIn place (g.placement? call).toList := by
  cases call with
  | node n parent =>
    rw [after, perform, placement?]
    cases added : g.addNode n parent with
    | error _ => exact (List.append_nil _).symm
    | ok g' =>
      dsimp only
      rw [inside_addNode added childless, Option.toList_some, putIn]
      by_cases same : parent = place
      · rw [if_pos same.symm, List.filter_cons_of_pos (by simpa using same)]
        rfl
      · rw [if_neg (Ne.symm same), List.filter_cons_of_neg (by simpa using same)]
        rfl
  | edge e =>
    rw [after, perform, placement?]
    cases added : g.addEdge e with
    | error _ => exact (List.append_nil _).symm
    | ok g' =>
      obtain ⟨rfl, _⟩ := addEdge_eq_ok added
      cases place <;> exact (List.append_nil _).symm

/-- In each place stand the nodes that accepted calls put there, in the order of the calls. -/
theorem inside_run {g : ModuleGraph} {calls : List Call} (childless : ∀ call ∈ calls, call.IsChildless)
    (place : Option Path) : (g.run calls).inside place = g.inside place ++ putIn place (g.placements calls) := by
  induction calls generalizing g with
  | nil => exact (List.append_nil _).symm
  | cons call calls ih =>
    obtain ⟨first, later⟩ := List.forall_mem_cons.mp childless
    have rest : ((g.after call).run calls).inside place = _ := ih later
    rw [run, List.foldl_cons, ← run, rest, inside_after first, placements, putIn, putIn, putIn, List.filter_append,
      List.map_append, List.append_assoc]

/-- What stands inside a node has its path and one segment more, and what stands at top level that of the
module and one segment more. -/
structure FollowsPaths (g : ModuleGraph) : Prop where
  children : ∀ path n, g.node? path = some n → ∀ inner ∈ n.children, ∃ name, inner = n.path.child name
  roots : ∀ root ∈ g.roots, ∃ name, root = g.module.child name

theorem IsKeyed.followsPaths_iff {g : ModuleGraph} (keyed : g.IsKeyed) : g.FollowsPaths ↔
    ∀ place, ∀ inner ∈ g.inside place, ∃ name, inner = (place.getD g.module).child name := by
  constructor
  · intro follows place inner member
    cases place with
    | none => exact follows.roots inner member
    | some path =>
      obtain ⟨n, found⟩ := contains_iff.mp (contains_of_mem_inside member)
      rw [inside, found] at member
      obtain ⟨name, same⟩ := follows.children path n found inner member
      exact ⟨name, keyed path n found ▸ same⟩
  · intro named
    refine ⟨fun path n found inner member => ?_, named none⟩
    rw [keyed path n found]
    exact named (some path) inner (by rw [inside, found]; exact member)

theorem isKeyed_ofCalls (module : Path) (version : Version) (calls : List Call) :
    (ofCalls module version calls).IsKeyed :=
  run_induction (motive := IsKeyed) (fun _ _ found => nomatch found) fun _ _ _ _ => isKeyed_perform

theorem module_ofCalls (module : Path) (version : Version) (calls : List Call) :
    (ofCalls module version calls).module = module :=
  run_induction (motive := fun g => g.module = module) rfl
    fun _ _ _ _ same accepted => (module_perform accepted).trans same

/-- Containment follows the paths of a graph exactly when every call that was accepted put a node where
its path belongs. -/
theorem followsPaths_ofCalls_iff (module : Path) (version : Version) (calls : List Call)
    (childless : ∀ call ∈ calls, call.IsChildless) : (ofCalls module version calls).FollowsPaths ↔
      ∀ p ∈ placements { module := module, version := version } calls,
        ∃ name, p.2 = (p.1.getD module).child name := by
  have nowhere : ∀ place, inside { module := module, version := version } place = [] := by
    rintro (_ | path) <;> rfl
  rw [(isKeyed_ofCalls module version calls).followsPaths_iff, module_ofCalls, ofCalls]
  simp only [inside_run childless, nowhere, List.nil_append, mem_putIn, Prod.forall]

/-- A deduction `m.T`, and an assertion `m.T.C` or `m.X.C` that is put inside it. -/
def assertingCalls (around : String) : List Call :=
  let version := Version.plain 1 0 0
  let outer := (Path.single "m").child "T"
  [.node { path := outer, version, kind := .deduction } none,
    .node { path := ((Path.single "m").child around).child "C", version, kind := .assertion } (some outer)]

theorem followsPaths_ofCalls_iff_assertingCalls : (∀ call ∈ assertingCalls "T", call.IsChildless) ∧
    (ofCalls (.single "m") (.plain 1 0 0) (assertingCalls "T")).FollowsPaths := by
  have childless : ∀ call ∈ assertingCalls "T", call.IsChildless := by
    refine List.forall_mem_cons.mpr ⟨rfl, List.forall_mem_singleton.mpr rfl⟩
  refine ⟨childless, (followsPaths_ofCalls_iff _ _ _ childless).mpr ?_⟩
  have places : placements { module := .single "m", version := .plain 1 0 0 } (assertingCalls "T") =
      [(none, (Path.single "m").child "T"),
        (some ((Path.single "m").child "T"), ((Path.single "m").child "T").child "C")] := by decide +kernel
  rw [places]
  exact List.forall_mem_cons.mpr ⟨⟨"T", rfl⟩, List.forall_mem_singleton.mpr ⟨"C", rfl⟩⟩

/-- The assertion `m.X.C` is accepted inside `m.T`. -/
theorem assertingCalls_stray : (∀ call ∈ assertingCalls "X", call.IsChildless) ∧
    ¬ (ofCalls (.single "m") (.plain 1 0 0) (assertingCalls "X")).FollowsPaths := by
  refine ⟨List.forall_mem_cons.mpr ⟨rfl, List.forall_mem_singleton.mpr rfl⟩, fun follows => ?_⟩
  have inside : ∃ n, (ofCalls (.single "m") (.plain 1 0 0) (assertingCalls "X")).node?
      ((Path.single "m").child "T") = some n ∧ n.path = (Path.single "m").child "T" ∧
        n.children = [((Path.single "m").child "X").child "C"] := ⟨_, rfl, by decide +kernel, by decide +kernel⟩
  obtain ⟨n, found, atPath, children⟩ := inside
  obtain ⟨name, same⟩ := follows.children _ n found _ (children ▸ List.mem_cons_self)
  have segments : ["m", "X", "C"] = ["m", "T", name] := congrArg Path.segments (atPath ▸ same)
  simp at segments

end ModuleGraph

end Deductions
