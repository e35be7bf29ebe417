import Deductions.Proofs.Graph.Walk
import Mathlib.Data.List.Pairwise
import Mathlib.Data.List.Perm.Subperm

namespace Deductions

namespace ModuleGraph

/-- All paths that are listed, at top level or inside a node, each as often as it is. -/
def listed (g : ModuleGraph) : List Path := g.roots ++ g.nodes.values.flatMap Node.children

section

variable {g : ModuleGraph} {paths : List Path} {nodes : List Node}

theorem isKeyed_ofParts (module : Path) (version : Version) (nodes : List Node) (roots : List Path)
    (edges : List Edge) : (ofParts module version nodes roots edges).IsKeyed := by
  intro path n found
  obtain ⟨n', _, same⟩ := List.mem_map.mp (SortedMap.mem_of_find?_ofList found)
  cases same
  rfl

/-- A walk meets what is stored as often as it is listed where the walk starts or inside what it meets. -/
theorem Traverses.perm_listed (keyed : g.IsKeyed) (traverses : g.Traverses paths nodes) :
    (nodes.map Node.path).Perm ((paths ++ nodes.flatMap Node.children).filter g.contains) := by
  induction traverses with
  | done => exact .nil
  | @missing path paths nodes absent rest ih =>
    have notStored : ¬ g.contains path = true := fun stored => by
      obtain ⟨n, found⟩ := contains_iff.mp stored
      cases absent.symm.trans found
    rwa [List.cons_append, List.filter_cons_of_neg notStored]
  | @node path n inner paths nodes found inside rest ihInside ih =>
    have regroup : ((n.children ++ inner.flatMap Node.children) ++ (paths ++ nodes.flatMap Node.children)).Perm
        (paths ++ (n :: (inner ++ nodes)).flatMap Node.children) := by
      rw [List.flatMap_cons, List.flatMap_append, ← List.append_assoc n.children]
      exact List.perm_append_comm_assoc ..
    rw [List.cons_append, List.filter_cons_of_pos (contains_iff.mpr ⟨n, found⟩), List.map_cons, keyed path n found,
      List.map_append]
    refine .cons path ((ihInside.append ih).trans ?_)
    rw [← List.filter_append]
    exact regroup.filter _

/-- What is met is stored, and one of the paths leads to it. -/
theorem Traverses.exists_leads (keyed : g.IsKeyed) (traverses : g.Traverses paths nodes) :
    ∀ n ∈ nodes, g.node? n.path = some n ∧ ∃ path ∈ paths, Relation.ReflTransGen g.Nests path n.path := by
  induction traverses with
  | done => exact nofun
  | missing absent rest ih =>
    intro n member
    obtain ⟨stored, path, inside, leads⟩ := ih n member
    exact ⟨stored, path, List.mem_cons_of_mem _ inside, leads⟩
  | @node path n inner paths nodes found inside rest ihInside ih =>
    have own := keyed path n found
    intro m member
    rcases List.mem_cons.mp member with rfl | member
    · exact ⟨own ▸ found, path, List.mem_cons_self, own ▸ .refl⟩
    rcases List.mem_append.mp member with member | member
    · obtain ⟨stored, child, listed, leads⟩ := ihInside m member
      exact ⟨stored, path, List.mem_cons_self, .head (nests_iff.mpr ⟨n, found, listed⟩) leads⟩
    · obtain ⟨stored, path', listed, leads⟩ := ih m member
      exact ⟨stored, path', List.mem_cons_of_mem _ listed, leads⟩

theorem Traverses.mem_values (keyed : g.IsKeyed) (traverses : g.Traverses paths nodes) {n : Node}
    (member : n ∈ nodes) : n ∈ g.nodes.values :=
  keyed.mem_values_iff.mpr (traverses.exists_leads keyed n member).1

theorem Traverses.mem_map_path_iff (keyed : g.IsKeyed) (traverses : g.Traverses paths nodes) {path : Path} :
    path ∈ nodes.map Node.path ↔
      (path ∈ paths ∨ ∃ n ∈ nodes, path ∈ n.children) ∧ g.contains path = true := by
  rw [(traverses.perm_listed keyed).mem_iff, List.mem_filter, List.mem_append, List.mem_flatMap]

/-- A node is met before the nodes inside it. -/
theorem Traverses.sublist_path (keyed : g.IsKeyed) (traverses : g.Traverses paths nodes) :
    ∀ n ∈ nodes, ∀ inner ∈ n.children, g.contains inner = true →
      [n.path, inner].Sublist (nodes.map Node.path) := by
  induction traverses with
  | done => exact nofun
  | missing absent rest ih => exact ih
  | @node path n within paths nodes found inside rest ihInside ih =>
    intro m member inner listed stored
    rw [List.map_cons, List.map_append]
    rcases List.mem_cons.mp member with rfl | member
    · have met := (inside.mem_map_path_iff keyed).mpr ⟨.inl listed, stored⟩
      exact ((List.singleton_sublist.mpr met).trans (List.sublist_append_left ..)).cons_cons m.path
    rcases List.mem_append.mp member with member | member
    · exact ((ihInside m member inner listed stored).trans (List.sublist_append_left ..)).cons n.path
    · exact ((ih m member inner listed stored).trans (List.sublist_append_right ..)).cons n.path

theorem Traverses.count_path (keyed : g.IsKeyed) (traverses : g.Traverses paths nodes) (path : Path) :
    (nodes.map Node.path).count path ≤ paths.count path + (nodes.flatMap Node.children).count path := by
  rw [(traverses.perm_listed keyed).count_eq, ← List.count_append]
  exact List.filter_sublist.count_le path

theorem eq_of_mem_flatMap {α β : Type} {f : α → List β} {l : List α} (once : (l.flatMap f).Nodup) {a a' : α} {b : β}
    (member : a ∈ l) (inside : b ∈ f a) (member' : a' ∈ l) (inside' : b ∈ f a') : a = a' := by
  have symmetric : Std.Symm (Function.onFun List.Disjoint f) := ⟨fun _ _ => List.disjoint_symm⟩
  exact Classical.byContradiction fun other =>
    (List.nodup_flatMap.mp once).2.forall member member' other inside inside'

theorem count_flatMap_le {α β : Type} [DecidableEq α] [DecidableEq β] {f : α → List β} {l : List α} {a : α} {b : β}
    (only : ∀ a' ∈ l, b ∈ f a' → a' = a) (once : (f a).count b ≤ 1) : (l.flatMap f).count b ≤ l.count a := by
  induction l with
  | nil => exact Nat.le_refl 0
  | cons a' l ih =>
    obtain ⟨first, later⟩ := List.forall_mem_cons.mp only
    have rest := ih later
    rw [List.flatMap_cons, List.count_append]
    by_cases inside : b ∈ f a'
    · obtain rfl := first inside
      rw [List.count_cons_self]
      omega
    · rw [List.count_eq_zero_of_not_mem inside, Nat.zero_add]
      exact rest.trans (List.count_le_count_cons ..)

/-- A walk meets no node twice if no path is listed twice. -/
theorem Traverses.nodup (keyed : g.IsKeyed) (traverses : g.Traverses g.roots nodes) (once : g.listed.Nodup) :
    (nodes.map Node.path).Nodup := by
  obtain ⟨onceRoots, onceInside, apart⟩ := List.nodup_append.mp once
  have onceChildren := (List.nodup_flatMap.mp onceInside).1
  have stored : ∀ {n : Node}, n ∈ nodes → n ∈ g.nodes.values := traverses.mem_values keyed
  refine List.nodup_iff_count_le_one.mpr fun path => ?_
  by_cases met : path ∈ nodes.map Node.path
  case neg => exact (List.count_eq_zero_of_not_mem met).trans_le (Nat.zero_le 1)
  obtain ⟨n, member, same⟩ := List.mem_map.mp met
  obtain ⟨_, root, isRoot, leads⟩ := traverses.exists_leads keyed n member
  rw [same] at leads
  clear met member same
  -- from the root inwards: what is listed inside one node only is met no more often than that node
  induction leads with
  | refl =>
    have notInside : root ∉ nodes.flatMap Node.children := by
      intro inside
      obtain ⟨m, member, inside⟩ := List.mem_flatMap.mp inside
      exact apart root isRoot root (List.mem_flatMap.mpr ⟨m, stored member, inside⟩) rfl
    have bound := traverses.count_path keyed root
    have oneRoot := List.nodup_iff_count_le_one.mp onceRoots root
    rw [List.count_eq_zero_of_not_mem notInside] at bound
    omega
  | @tail outer inner _ nests ih =>
    obtain ⟨m, found, listed⟩ := nests_iff.mp nests
    have inValues : m ∈ g.nodes.values := keyed.mem_values_iff.mpr ((keyed outer m found).symm ▸ found)
    have notRoot : inner ∉ g.roots := fun isRoot =>
      apart inner isRoot inner (List.mem_flatMap.mpr ⟨m, inValues, listed⟩) rfl
    have only : ∀ m' ∈ nodes, inner ∈ m'.children → m' = m := fun m' member listed' =>
      eq_of_mem_flatMap onceInside (stored member) listed' inValues listed
    have bound := traverses.count_path keyed inner
    have fewer := count_flatMap_le only (List.nodup_iff_count_le_one.mp (onceChildren m inValues) inner)
    have known : nodes.count m ≤ (nodes.map Node.path).count outer := by
      rw [← keyed outer m found]
      exact List.count_le_count_map ..
    rw [List.count_eq_zero_of_not_mem notRoot] at bound
    omega

/-- All that is stored is listed once, and nothing else is, if a walk meets every node once. -/
theorem Traverses.nodup_listed (keyed : g.IsKeyed) (traverses : g.Traverses g.roots nodes)
    (stored : ∀ path ∈ g.listed, g.contains path = true) (once : nodes.Perm g.nodes.values) : g.listed.Nodup := by
  have listing : (g.roots ++ nodes.flatMap Node.children).Perm g.listed :=
    (once.flatMap_right Node.children).append_left g.roots
  have all : (g.roots ++ nodes.flatMap Node.children).filter g.contains = g.roots ++ nodes.flatMap Node.children :=
    List.filter_eq_self.mpr fun path member => stored path (listing.mem_iff.mp member)
  have met := traverses.perm_listed keyed
  rw [all] at met
  refine (listing.symm.trans (met.symm.trans (once.map Node.path))).nodup_iff.mpr ?_
  rw [keyed.map_path_values]
  exact g.nodes.nodup_keys

/-- A walk that comes to the path of every node, and to none twice, meets every node once. -/
theorem Traverses.perm_values (keyed : g.IsKeyed) (traverses : g.Traverses g.roots nodes)
    (once : (nodes.map Node.path).Nodup) (all : ∀ n ∈ g.nodes.values, n.path ∈ nodes.map Node.path) :
    nodes.Perm g.nodes.values := by
  refine (List.perm_ext_iff_of_nodup once.of_map keyed.nodup_values).mpr fun n => ?_
  refine ⟨traverses.mem_values keyed, fun member => ?_⟩
  obtain ⟨m, met, same⟩ := List.mem_map.mp (all n member)
  have found := (traverses.exists_leads keyed m met).1
  rw [same, keyed.mem_values_iff.mp member] at found
  cases found
  exact met

/-- Nothing is wrong with a graph: the children of its nodes are stored, and its walk makes as many visits as
there are nodes or meets them all. -/
theorem of_validate_eq_nil (keyed : g.IsKeyed) (walked : g.walk = some nodes) (valid : g.validate = some []) :
    (∀ n ∈ g.nodes.values, ∀ inner ∈ n.children, g.contains inner = true) ∧
      (nodes.length = g.nodes.size ∨ ∀ n ∈ g.nodes.values, n.path ∈ nodes.map Node.path) := by
  rw [validate, walked] at valid
  have parts := List.append_eq_nil_iff.mp (Option.some.inj valid)
  obtain ⟨noNodeErrors, noneUnreached⟩ := List.append_eq_nil_iff.mp parts.1
  constructor
  · intro n member inner inside
    have noErrors := List.flatMap_eq_nil_iff.mp noNodeErrors n member
    simp only [nodeErrors, List.append_eq_nil_iff, List.map_eq_nil_iff, List.filter_eq_nil_iff] at noErrors
    simpa using noErrors.1.2 inner inside
  · rw [unreachedErrors] at noneUnreached
    refine or_iff_not_imp_left.mpr fun other n member => ?_
    rw [if_neg other, List.map_eq_nil_iff, List.filter_eq_nil_iff] at noneUnreached
    have inKeys : n.path ∈ g.nodes.keys := keyed.map_path_values ▸ List.mem_map_of_mem member
    simpa using noneUnreached n.path inKeys

/-- A walk that meets no node twice meets them all, if nothing is wrong with the graph. -/
theorem Traverses.perm_values_of_valid (keyed : g.IsKeyed) (traverses : g.Traverses g.roots nodes)
    (valid : g.validate = some []) (once : (nodes.map Node.path).Nodup) : nodes.Perm g.nodes.values := by
  rcases (of_validate_eq_nil keyed (walk_eq_some_iff.mpr traverses) valid).2 with asMany | all
  · refine (List.subperm_of_subset once.of_map fun n => traverses.mem_values keyed).perm_of_length_le ?_
    rw [asMany, SortedMap.values, List.length_map, SortedMap.size]
  · exact traverses.perm_values keyed once all

end

/-- A graph of stored parts with which nothing is wrong has nothing missing inside its nodes. It has all its
roots, and its walk meets every node once, exactly when no root is missing and no path is listed twice. -/
theorem ofParts_valid_iff (module : Path) (version : Version) (nodes : List Node) (roots : List Path)
    (edges : List Edge) {met : List Node} (walked : (ofParts module version nodes roots edges).walk = some met)
    (valid : (ofParts module version nodes roots edges).validate = some []) :
    let g := ofParts module version nodes roots edges
    (∀ n ∈ g.nodes.values, ∀ inner ∈ n.children, g.contains inner = true) ∧
      ((∀ root ∈ roots, g.contains root = true) ∧ met.Perm g.nodes.values ↔
        (∀ root ∈ roots, g.contains root = true) ∧ g.listed.Nodup) := by
  intro g
  have keyed : g.IsKeyed := isKeyed_ofParts module version nodes roots edges
  have traverses : g.Traverses g.roots met := walk_eq_some_iff.mp walked
  have children := (of_validate_eq_nil keyed walked valid).1
  refine ⟨children, and_congr_right fun allRoots => ⟨fun once => ?_, fun once => ?_⟩⟩
  · refine traverses.nodup_listed keyed (fun path member => ?_) once
    rcases List.mem_append.mp member with isRoot | inside
    · exact allRoots path isRoot
    · obtain ⟨n, member, inside⟩ := List.mem_flatMap.mp inside
      exact children n member path inside
  · exact traverses.perm_values_of_valid keyed valid (traverses.nodup keyed once)

/-- The graph of a deduction `m.T` and of a deduction `m.D` with a sub-deduction inside, with these roots. -/
def lemmaParts (roots : List Path) : ModuleGraph :=
  let version := Version.plain 1 0 0
  let outer := (Path.single "m").child "D"
  let inner := outer.child "E"
  ofParts (.single "m") version
    [{ path := (Path.single "m").child "T", version, kind := .deduction },
      { path := outer, version, kind := .deduction, children := [inner] },
      { path := inner, version, kind := .subDeduction }] roots []

theorem ofParts_valid_iff_lemmaParts :
    let g := lemmaParts [(Path.single "m").child "T", (Path.single "m").child "D"]
    g.validate = some [] ∧ g.listed.Nodup ∧ ∃ met, g.walk = some met ∧ met.Perm g.nodes.values := by
  intro g
  have valid : g.validate = some [] := by decide +kernel
  have once : g.listed.Nodup := by decide +kernel
  obtain ⟨met, walked⟩ : ∃ met, g.walk = some met := Option.isSome_iff_exists.mp (by decide +kernel)
  refine ⟨valid, once, met, walked, ?_⟩
  refine ((ofParts_valid_iff _ _ _ _ _ walked valid).2.mpr ⟨?_, once⟩).2
  decide +kernel

/-- Nothing is found to be wrong if `m.T` is the root three times, though the walk comes to no other node. -/
theorem lemmaParts_repeated :
    let root := (Path.single "m").child "T"
    let g := lemmaParts [root, root, root]
    g.validate = some [] ∧ ∃ met, g.walk = some met ∧ met.map Node.path = [root, root, root] ∧
      ¬ met.Perm g.nodes.values := by
  intro root g
  have walked : g.walk.map (List.map Node.path) = some [root, root, root] := by decide +kernel
  obtain ⟨met, walked, paths⟩ := Option.map_eq_some_iff.mp walked
  refine ⟨by decide +kernel, met, walked, paths, fun perm => ?_⟩
  have same := (perm.map Node.path).nodup_iff.mpr (by decide +kernel)
  rw [paths] at same
  exact absurd same (by decide +kernel)

end ModuleGraph

end Deductions
