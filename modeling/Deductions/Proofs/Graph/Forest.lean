import Deductions.Proofs.Compiled
import Deductions.Proofs.Lookup
import Mathlib.Data.List.Perm.Basic

namespace Deductions

namespace ModuleGraph

/-- The nodes directly inside the node at `parent`, or at top level. -/
def inside (g : ModuleGraph) : Option Path → List Path
  | none => g.roots
  | some path => ((g.node? path).map Node.children).getD []

theorem contains_iff {g : ModuleGraph} {path : Path} :
    g.contains path = true ↔ ∃ n, g.node? path = some n := Option.isSome_iff_exists

theorem contains_of_mem_inside {g : ModuleGraph} {path inner : Path} (member : inner ∈ g.inside (some path)) :
    g.contains path = true := by
  rw [inside] at member
  cases found : g.node? path with
  | none =>
    rw [found] at member
    cases member
  | some n => exact contains_iff.mpr ⟨n, found⟩

/-- The nodes stand in a forest. Each is in order by itself, and is named for its place, which no other
node has. -/
structure IsForest (g : ModuleGraph) : Prop where
  keyed : g.IsKeyed
  sound : ∀ path n, g.node? path = some n → n.version = g.version ∧ n.fieldErrors = []
  within : ∀ path, g.contains path = true → (path.strip? g.module).isSome = true
  distinct : ∀ parent, (g.inside parent).Nodup
  named : ∀ parent, ∀ inner ∈ g.inside parent, ∃ name, inner = (parent.getD g.module).child name
  stored : ∀ parent, ∀ inner ∈ g.inside parent, g.contains inner = true
  placed : ∀ path, g.contains path = true → ∃ parent, path ∈ g.inside parent

end ModuleGraph

/-- The node is as a block makes it, to stand inside `parent`. -/
structure Node.IsNew (n : Node) (g : ModuleGraph) (parent : Option Path) : Prop where
  named : ∃ name, n.path = (parent.getD g.module).child name
  childless : n.children = []
  sound : n.fieldErrors = []

namespace ModuleGraph

section

variable {g g' : ModuleGraph} {node : Node} {parent : Option Path} (added : g.addNode node parent = .ok g')
include added

theorem addNode_accepts : (node.path.strip? g.module).isSome = true ∧ node.version = g.version ∧
    g.contains node.path = false ∧ ∀ path ∈ parent, g.contains path = true := by
  simp only [addNode, bind, Except.bind, throw, throwThe, MonadExceptOf.throw] at added
  repeat' split at added
  all_goals try cases added
  next inModule atVersion fresh _ =>
    refine ⟨Option.isSome_iff_ne_none.mpr (by simpa using inModule), by simpa using atVersion,
      by simpa using fresh, ?_⟩
    rintro _ ⟨⟩
  next inModule atVersion fresh _ path _ outer found _ =>
    refine ⟨Option.isSome_iff_ne_none.mpr (by simpa using inModule), by simpa using atVersion,
      by simpa using fresh, ?_⟩
    rintro _ ⟨⟩
    exact contains_iff.mpr ⟨outer, found⟩

/-- A node that is there afterwards is the new one, or was there but for what is inside it. -/
theorem node?_addNode {path : Path} {n : Node} (found : g'.node? path = some n) :
    path = node.path ∧ n = node ∨ ∃ old, g.node? path = some old ∧ n = { old with children := n.children } := by
  simp only [addNode, bind, Except.bind, throw, throwThe, MonadExceptOf.throw] at added
  repeat' split at added
  all_goals try cases added
  all_goals
    by_cases isNew : path = node.path
    · subst isNew
      rw [node?, SortedMap.find?_insert_self] at found
      exact .inl ⟨rfl, (Option.some.inj found).symm⟩
    rw [node?, SortedMap.find?_insert_of_ne _ _ isNew] at found
  · exact .inr ⟨n, found, rfl⟩
  next outerPath _ outer foundOuter _ =>
    by_cases isOuter : path = outerPath
    · subst isOuter
      rw [SortedMap.find?_insert_self] at found
      cases found
      exact .inr ⟨outer, foundOuter, rfl⟩
    · rw [SortedMap.find?_insert_of_ne _ _ isOuter] at found
      exact .inr ⟨n, found, rfl⟩

theorem contains_addNode {path : Path} :
    g'.contains path = true ↔ path = node.path ∨ g.contains path = true := by
  simp only [addNode, bind, Except.bind, throw, throwThe, MonadExceptOf.throw] at added
  repeat' split at added
  all_goals try cases added
  · rw [contains, SortedMap.contains_iff, SortedMap.mem_keys_insert, ← SortedMap.contains_iff]
    rfl
  next outerPath _ outer foundOuter _ =>
    have stored : outerPath ∈ g.nodes.keys := SortedMap.contains_iff.mp (contains_iff.mpr ⟨outer, foundOuter⟩)
    rw [contains, SortedMap.contains_iff, SortedMap.mem_keys_insert, SortedMap.mem_keys_insert, contains,
      SortedMap.contains_iff]
    exact or_congr_right (or_iff_right_of_imp fun same => same ▸ stored)

/-- The new node comes last in its place, and nothing else changes its place. -/
theorem inside_addNode (childless : node.children = []) (place : Option Path) :
    g'.inside place = g.inside place ++ if place = parent then [node.path] else [] := by
  have fresh : (g.nodes.find? node.path).isSome = false := (addNode_accepts added).2.2.1
  have absent : g.nodes.find? node.path = none := by simpa using fresh
  simp only [addNode, bind, Except.bind, throw, throwThe, MonadExceptOf.throw] at added
  repeat' split at added
  all_goals try cases added
  · cases place with
    | none => rfl
    | some path =>
      by_cases isNew : path = node.path
      · subst isNew
        simp [inside, node?, childless, absent]
      · simp [inside, node?, SortedMap.find?_insert_of_ne _ _ isNew]
  next outerPath _ outer foundOuter _ =>
    have other : outerPath ≠ node.path := by
      rintro rfl
      cases foundOuter.symm.trans absent
    cases place with
    | none => simp [inside]
    | some path =>
      by_cases isNew : path = node.path
      · subst isNew
        simp [inside, node?, childless, absent, Ne.symm other]
      by_cases isOuter : path = outerPath
      · subst isOuter
        simp [inside, node?, SortedMap.find?_insert_of_ne _ _ isNew,
          show g.nodes.find? path = some outer from foundOuter]
      · simp [inside, node?, SortedMap.find?_insert_of_ne _ _ isNew,
          SortedMap.find?_insert_of_ne _ _ isOuter, isOuter]

theorem IsForest.addNode (forest : g.IsForest) (isNew : node.IsNew g parent) : g'.IsForest := by
  obtain ⟨inModule, atVersion, fresh, _⟩ := addNode_accepts added
  obtain ⟨sameModule, sameVersion, _⟩ := addNode_frame added
  have insides := inside_addNode added isNew.childless
  have cases : ∀ {place inner}, inner ∈ g'.inside place →
      inner ∈ g.inside place ∨ place = parent ∧ inner = node.path := by
    intro place inner member
    rw [insides place, List.mem_append] at member
    refine member.imp_right fun new => ?_
    split at new
    next atParent => exact ⟨atParent, List.mem_singleton.mp new⟩
    · cases new
  constructor
  case keyed => exact isKeyed_addNode g node parent g' forest.keyed added
  case sound =>
    intro path n found
    rw [sameVersion]
    rcases node?_addNode added found with ⟨_, rfl⟩ | ⟨old, before, same⟩
    · exact ⟨atVersion, isNew.sound⟩
    · rw [same]
      exact forest.sound path old before
  case within =>
    intro path stored
    rw [sameModule]
    rcases (contains_addNode added).mp stored with rfl | before
    · exact inModule
    · exact forest.within path before
  case distinct =>
    intro place
    have notInside : node.path ∉ g.inside place := fun member => by
      rw [forest.stored place _ member] at fresh
      cases fresh
    rw [insides place]
    split
    · exact List.nodup_append.mpr ⟨forest.distinct place, List.nodup_singleton _, fun inner member _ new same =>
        notInside (List.mem_singleton.mp new ▸ same ▸ member)⟩
    · rw [List.append_nil]
      exact forest.distinct place
  case named =>
    intro place inner member
    rw [sameModule]
    rcases cases member with old | ⟨rfl, rfl⟩
    · exact forest.named place inner old
    · exact isNew.named
  case stored =>
    intro place inner member
    rw [contains_addNode added]
    exact (cases member).symm.imp And.right (forest.stored place inner)
  case placed =>
    intro path stored
    rcases (contains_addNode added).mp stored with rfl | before
    · exact ⟨parent, by rw [insides, if_pos rfl]; exact List.mem_append_right _ List.mem_cons_self⟩
    · obtain ⟨place, member⟩ := forest.placed path before
      exact ⟨place, by rw [insides]; exact List.mem_append_left _ member⟩

end

end ModuleGraph

namespace Draft

/-- The draft has a forest of nodes unless something is wrong with it. -/
def IsSound (d : Draft) : Prop := d.errors = [] → d.graph.IsForest

theorem errors_of_clause {d : Draft} {clause : Clause} {source scope : Path} {header : Header}
    {names : List Path} (none : (d.clause clause source scope header names).errors = []) : d.errors = [] :=
  (List.append_eq_nil_iff.mp none).1

theorem narrate_eq (n : Node) : ∃ narration, (narrate n).1 = { n with narration := narration } := by
  unfold narrate
  repeat' split
  all_goals exact ⟨_, rfl⟩

/-- A block that is described without an error makes a new node. -/
theorem isNew_describe {d : Draft} {header : Header} {fields : List Field} {parent : Option Path}
    (none : (d.describe header fields (parent.getD d.graph.module)).2.errors = []) :
    d.errors = [] ∧ (d.describe header fields (parent.getD d.graph.module)).1.IsNew d.graph parent := by
  have none := errors_of_clause (errors_of_clause (errors_of_clause (errors_of_clause none)))
  obtain ⟨none, errors⟩ := List.append_eq_nil_iff.mp none
  obtain ⟨_, errors⟩ := List.append_eq_nil_iff.mp errors
  obtain ⟨narration, same⟩ := narrate_eq (plainNode d.graph.version header
    ((parent.getD d.graph.module).child header.name) fields)
  have node : (d.describe header fields (parent.getD d.graph.module)).1 = { plainNode d.graph.version header
      ((parent.getD d.graph.module).child header.name) fields with narration := narration } := same
  refine ⟨none, ⟨header.name, ?_⟩, ?_, List.map_eq_nil_iff.mp errors⟩
  · rw [node]
    rfl
  · rw [node]
    rfl

mutual

theorem isSound_addItem (parent : Option Path) : ∀ (d : Draft) (i : Item), d.IsSound → (addItem parent d i).IsSound
  | _, .field _, sound => sound
  | d, .block header items, sound => by
    rw [addItem]
    dsimp only
    split
    · exact fun none => absurd (List.append_eq_nil_iff.mp none).2 (List.cons_ne_nil _ _)
    next graph added =>
      refine isSound_addItems _ _ items fun none => ?_
      obtain ⟨before, isNew⟩ := isNew_describe none
      exact (sound before).addNode added isNew

theorem isSound_addItems (parent : Option Path) : ∀ (d : Draft) (items : List Item), d.IsSound →
    (addItems parent d items).IsSound
  | _, [], sound => sound
  | d, i :: items, sound => isSound_addItems parent _ items (isSound_addItem parent d i sound)

end

end Draft

theorem ModuleGraph.isForest_empty (module : Path) (version : Version) :
    ModuleGraph.IsForest { module := module, version := version } where
  keyed _ _ found := nomatch found
  sound _ _ found := nomatch found
  within _ stored := nomatch stored
  distinct parent := by cases parent <;> exact .nil
  named parent inner member := by cases parent <;> cases member
  stored parent inner member := by cases parent <;> cases member
  placed _ stored := nomatch stored

/-- The nodes of a built module stand in a forest. -/
theorem Candidate.isForest_of_build {module : Path} {version : Version} {source : Source} {c : Candidate}
    (built : Candidate.build module version source = .ok c) : c.graph.IsForest := by
  unfold Candidate.build at built
  dsimp only at built
  split at built
  next noErrors =>
    cases built
    exact Draft.isSound_addItems none _ _ (fun _ => ModuleGraph.isForest_empty module version)
      (List.isEmpty_iff.mp noErrors)
  · cases built

namespace ModuleGraph

theorem IsKeyed.mem_values_iff {g : ModuleGraph} (keyed : g.IsKeyed) {n : Node} :
    n ∈ g.nodes.values ↔ g.node? n.path = some n := by
  rw [SortedMap.values, List.mem_map]
  constructor
  · rintro ⟨⟨path, n⟩, entry, rfl⟩
    have found := SortedMap.find?_eq_some_iff.mpr entry
    rw [keyed path n found]
    exact found
  · exact fun found => ⟨(n.path, n), SortedMap.find?_eq_some_iff.mp found, rfl⟩

theorem IsKeyed.map_path_values {g : ModuleGraph} (keyed : g.IsKeyed) :
    g.nodes.values.map Node.path = g.nodes.keys := by
  rw [SortedMap.values, SortedMap.keys, List.map_map]
  exact List.map_congr_left fun e entry => keyed e.1 e.2 (SortedMap.find?_eq_some_iff.mpr entry)

theorem IsKeyed.nodup_values {g : ModuleGraph} (keyed : g.IsKeyed) : g.nodes.values.Nodup :=
  List.Nodup.of_map Node.path (keyed.map_path_values ▸ g.nodes.nodup_keys)

theorem IsKeyed.contains_of_mem {g : ModuleGraph} (keyed : g.IsKeyed) {n : Node} (member : n ∈ g.nodes.values) :
    g.contains n.path = true := contains_iff.mpr ⟨n, keyed.mem_values_iff.mp member⟩

/-- The nodes at a path and inside it. -/
def below (g : ModuleGraph) (path : Path) : List Node := g.nodes.values.filter fun n => n.path.startsWith path

namespace IsForest

variable {g : ModuleGraph} (forest : g.IsForest)
include forest

theorem nodup_below (path : Path) : (g.below path).Nodup := forest.keyed.nodup_values.filter _

/-- A place is told by the path of what it is in. -/
theorem eq_of_scope {place place' : Option Path} (stored : ∀ path ∈ place, g.contains path = true)
    (stored' : ∀ path ∈ place', g.contains path = true)
    (same : place.getD g.module = place'.getD g.module) : place = place' := by
  have longer : ∀ path, g.contains path = true → path ≠ g.module := by
    rintro _ stored rfl
    exact Nat.lt_irrefl _ (Path.isSome_strip?_iff.mp (forest.within _ stored)).2
  cases place with
  | none =>
    cases place' with
    | none => rfl
    | some path => exact absurd same.symm (longer path (stored' path rfl))
  | some path =>
    cases place' with
    | none => exact absurd same (longer path (stored path rfl))
    | some path' => exact congrArg some same

/-- What lies inside a node or inside the module lies at or inside one of those directly inside. -/
theorem exists_inside {parent : Option Path} (stored : ∀ path ∈ parent, g.contains path = true) {path : Path}
    (here : g.contains path = true) (begins : path.startsWith (parent.getD g.module) = true)
    (other : path ≠ parent.getD g.module) : ∃ inner ∈ g.inside parent, path.startsWith inner = true := by
  -- from the path outwards, until its place is `parent`
  induction length : path.length generalizing path with
  | zero => exact absurd (List.length_eq_zero_iff.mp length) path.nonempty
  | succ length' ih =>
    obtain ⟨place, member⟩ := forest.placed path here
    by_cases atParent : place = parent
    · exact ⟨path, atParent ▸ member, path.startsWith_refl⟩
    obtain ⟨name, rfl⟩ := forest.named place path member
    have begins := (Path.startsWith_child_iff.mp begins).resolve_left (Ne.symm other)
    have storedPlace : ∀ path ∈ place, g.contains path = true := by
      rintro outer rfl
      exact contains_of_mem_inside member
    have other : place.getD g.module ≠ parent.getD g.module := fun same =>
      atParent (forest.eq_of_scope storedPlace stored same)
    cases place with
    | none =>
      -- at top level only the module is around
      cases parent with
      | none => exact absurd rfl other
      | some outer =>
        have inModule := Path.isSome_strip?_iff.mp (forest.within outer (stored outer rfl))
        exact absurd (Path.length_le_of_startsWith begins) (Nat.not_le.mpr inModule.2)
    | some outer =>
      rw [Path.length_child, Nat.add_right_cancel_iff] at length
      obtain ⟨inner, inside, around⟩ := ih (storedPlace outer rfl) begins other length
      exact ⟨inner, inside, Path.startsWith_trans (Path.startsWith_child _ _) around⟩

/-- The nodes inside a place are those below its nodes. -/
theorem perm_flatMap_below (parent : Option Path) (stored : ∀ path ∈ parent, g.contains path = true) :
    ((g.inside parent).flatMap g.below).Perm ((g.below (parent.getD g.module)).filter
      fun n => n.path ≠ parent.getD g.module) := by
  have named := forest.named parent
  refine (List.perm_ext_iff_of_nodup ?_ ((forest.nodup_below _).filter _)).mpr fun n => ?_
  · refine List.nodup_flatMap.mpr ⟨fun inner _ => forest.nodup_below inner, ?_⟩
    refine (forest.distinct parent).pairwise_of_forall_ne fun a member b member' other n atA atB => other ?_
    obtain ⟨_, rfl⟩ := named a member
    obtain ⟨_, rfl⟩ := named b member'
    exact Path.eq_of_startsWith_of_length (List.mem_filter.mp atA).2 (List.mem_filter.mp atB).2 (by simp)
  · simp only [below, List.mem_flatMap, List.mem_filter, decide_eq_true_eq]
    constructor
    · rintro ⟨inner, member, inNodes, begins⟩
      obtain ⟨name, rfl⟩ := named inner member
      refine ⟨⟨inNodes, Path.startsWith_trans begins (Path.startsWith_child _ _)⟩, fun same => ?_⟩
      have longer := Path.length_le_of_startsWith begins
      rw [same, Path.length_child] at longer
      exact Nat.not_succ_le_self _ longer
    · rintro ⟨⟨inNodes, begins⟩, other⟩
      obtain ⟨inner, member, around⟩ :=
        forest.exists_inside stored (forest.keyed.contains_of_mem inNodes) begins other
      exact ⟨inner, member, inNodes, around⟩

theorem perm_below {path : Path} {n : Node} (found : g.node? path = some n) :
    (n :: n.children.flatMap g.below).Perm (g.below path) := by
  have own : n.path = path := forest.keyed path n found
  have inside : g.inside (some path) = n.children := by rw [inside, found]; rfl
  have rest := forest.perm_flatMap_below (some path) fun p isPath =>
    contains_iff.mpr ⟨n, Option.mem_some_iff.mp isPath ▸ found⟩
  rw [inside, Option.getD_some] at rest
  have here : n ∈ g.below path := List.mem_filter.mpr
    ⟨forest.keyed.mem_values_iff.mpr (own.symm ▸ found), own.symm ▸ path.startsWith_refl⟩
  refine (rest.cons n).trans ?_
  have others : (g.below path).filter (fun m => m.path ≠ path) = (g.below path).filter (· != n) := by
    refine List.filter_congr fun m member => Bool.eq_iff_iff.mpr ?_
    rw [decide_eq_true_eq, bne_iff_ne]
    refine not_congr ⟨fun same => ?_, fun same => same ▸ own⟩
    have foundToo := forest.keyed.mem_values_iff.mp (List.mem_filter.mp member).1
    rw [same, found] at foundToo
    exact (Option.some.inj foundToo).symm
  rw [others, ← (forest.nodup_below path).erase_eq_filter n]
  exact (List.perm_cons_erase here).symm

end IsForest

theorem perm_flatten_of_mapM {f : Path → Option (List Node)} {g : Path → List Node} {l : List Path}
    (each : ∀ path ∈ l, ∃ nodes, f path = some nodes ∧ nodes.Perm (g path)) :
    ∃ trees, l.mapM f = some trees ∧ trees.flatten.Perm (l.flatMap g) := by
  induction l with
  | nil => exact ⟨[], rfl, .nil⟩
  | cons path l ih =>
    obtain ⟨first, later⟩ := List.forall_mem_cons.mp each
    obtain ⟨nodes, visited, perm⟩ := first
    obtain ⟨trees, mapped, permLater⟩ := ih later
    refine ⟨nodes :: trees, ?_, ?_⟩
    · simp [List.mapM_cons, visited, mapped]
    · rw [List.flatten_cons, List.flatMap_cons]
      exact perm.append permLater

theorem IsForest.visit_eq {g : ModuleGraph} (forest : g.IsForest) {depth : Nat} {path : Path}
    (stored : g.contains path = true) (enough : (g.below path).length ≤ depth) :
    ∃ nodes, g.visit depth path = some nodes ∧ nodes.Perm (g.below path) := by
  induction depth generalizing path with
  | zero =>
    obtain ⟨n, found⟩ := contains_iff.mp stored
    have notEmpty := (forest.perm_below found).length_eq
    rw [List.length_cons] at notEmpty
    omega
  | succ depth ih =>
    obtain ⟨n, found⟩ := contains_iff.mp stored
    have perm := forest.perm_below found
    have fewer : (n.children.flatMap g.below).length ≤ depth := by
      have same := perm.length_eq
      rw [List.length_cons] at same
      omega
    have inner : ∀ inner ∈ n.children, ∃ nodes, g.visit depth inner = some nodes ∧
        nodes.Perm (g.below inner) := fun inner member =>
      ih (forest.stored (some path) inner (by rw [inside, found]; exact member))
        ((List.sublist_flatten_of_mem (List.mem_map_of_mem member)).length_le.trans fewer)
    obtain ⟨trees, mapped, permTrees⟩ := perm_flatten_of_mapM inner
    refine ⟨n :: trees.flatten, ?_, (permTrees.cons n).trans perm⟩
    rw [visit, found]
    simp [mapped]

/-- The walk through a forest meets every node once. -/
theorem IsForest.walk_eq {g : ModuleGraph} (forest : g.IsForest) :
    ∃ nodes, g.walk = some nodes ∧ nodes.Perm g.nodes.values := by
  have trees : ∀ root ∈ g.roots, ∃ nodes, g.visit g.nodes.size root = some nodes ∧
      nodes.Perm (g.below root) := fun root member => by
    refine forest.visit_eq (forest.stored none root member) ?_
    rw [SortedMap.size, ← List.length_map (f := Prod.snd)]
    exact List.length_filter_le _ _
  obtain ⟨trees, mapped, perm⟩ := perm_flatten_of_mapM trees
  refine ⟨trees.flatten, by simp [walk, mapped], perm.trans ?_⟩
  have all := forest.perm_flatMap_below none fun _ isPath => by cases isPath
  rw [below, List.filter_filter, List.filter_eq_self.mpr] at all
  · exact all
  · intro n member
    obtain ⟨begins, longer⟩ := Path.isSome_strip?_iff.mp (forest.within _ (forest.keyed.contains_of_mem member))
    rw [Option.getD_none, begins, Bool.and_true, decide_eq_true_eq]
    rintro same
    exact Nat.lt_irrefl _ (same ▸ longer)

end ModuleGraph

end Deductions
