import Deductions.Proofs.Library
import Deductions.Resolution

namespace Deductions

theorem mem_of_mapM {α β : Type} {f : α → Option β} {l : List α} {l' : List β}
    (mapped : l.mapM f = some l') : ∀ b ∈ l', ∃ a ∈ l, f a = some b := by
  induction l generalizing l' with
  | nil =>
    cases mapped
    exact fun b member => nomatch member
  | cons a l ih =>
    simp only [List.mapM_cons, bind, Option.bind_eq_some_iff, pure, Option.some.injEq] at mapped
    obtain ⟨b, atFirst, rest, mapped, rfl⟩ := mapped
    intro b' member
    rcases List.mem_cons.mp member with rfl | member
    · exact ⟨a, List.mem_cons_self, atFirst⟩
    · obtain ⟨a', inside, found⟩ := ih mapped b' member
      exact ⟨a', List.mem_cons_of_mem _ inside, found⟩

namespace ModuleGraph

theorem mem_nodes_of_visit {g : ModuleGraph} {depth : Nat} {path : Path} {nodes : List Node}
    (visited : g.visit depth path = some nodes) : ∀ n ∈ nodes, n ∈ g.nodes.values := by
  induction depth generalizing path nodes with
  | zero =>
    unfold visit at visited
    split at visited
    · cases visited
      exact fun n member => nomatch member
    · cases visited
  | succ depth ih =>
    unfold visit at visited
    split at visited
    · cases visited
      exact fun n member => nomatch member
    next node found =>
      simp only [bind, Option.bind_eq_some_iff, pure, Option.some.injEq] at visited
      obtain ⟨trees, mapped, rfl⟩ := visited
      intro n member
      rcases List.mem_cons.mp member with rfl | member
      · exact List.mem_map_of_mem (SortedMap.find?_eq_some_iff.mp found)
      · obtain ⟨tree, inTrees, inTree⟩ := List.mem_flatten.mp member
        obtain ⟨child, _, visited⟩ := mem_of_mapM mapped tree inTrees
        exact ih visited n inTree

theorem mem_nodes_of_mem_walk {g : ModuleGraph} {n : Node} (member : n ∈ g.walk.getD []) :
    n ∈ g.nodes.values := by
  cases walked : g.walk with
  | none =>
    rw [walked] at member
    cases member
  | some nodes =>
    rw [walked, Option.getD_some] at member
    simp only [walk, bind, Option.bind_eq_some_iff, pure, Option.some.injEq] at walked
    obtain ⟨trees, mapped, rfl⟩ := walked
    obtain ⟨tree, inTrees, inTree⟩ := List.mem_flatten.mp member
    obtain ⟨root, _, visited⟩ := mem_of_mapM mapped tree inTrees
    exact mem_nodes_of_visit visited n inTree

end ModuleGraph

namespace Resolution

variable {graph : ModuleGraph} {s : Surroundings} {imports : ImportTable} {module scope name : Path}
  {place : Place}

/-- Whether the path is where the name leads if it is taken as one of what `target` stands for. -/
def IsThrough (imports : ImportTable) (name : Path) (target : ImportTarget) (path : Path) : Prop :=
  imports.get? name.head = some target ∧ path = throughImport target name ∨
    target ∈ imports.globs ∧ path = target.path.join name

theorem IsThrough.startsWith {target : ImportTarget} {path : Path}
    (through : IsThrough imports name target path) : path.startsWith target.path = true := by
  rw [Path.startsWith_iff]
  rcases through with ⟨_, rfl⟩ | ⟨_, rfl⟩
  · unfold throughImport
    split
    · exact List.prefix_append _ _
    · exact List.prefix_rfl
  · exact List.prefix_append _ _

/-- The places outside the module where a name is looked up. The scope has no say in them. -/
def outerPlaces (imports : ImportTable) (name : Path) : List Place :=
  ((imports.get? name.head).map fun target => ⟨throughImport target name, .anywhere target.version⟩).toList ++
    imports.globs.map (fun target => ⟨target.path.join name, .anywhere target.version⟩) ++
    [⟨name, .anywhere none⟩]

theorem mem_places_iff : place ∈ places module imports scope name ↔
    (∃ outer ∈ scopes module scope, ⟨outer.join name, .module⟩ = place) ∨ place ∈ outerPlaces imports name := by
  rw [places, outerPlaces, List.append_assoc, List.append_assoc, List.mem_append, List.mem_map, List.append_assoc]

theorem mem_outerPlaces (member : place ∈ places module imports scope name) (outside : place.reach ≠ .module) :
    place ∈ outerPlaces imports name := by
  refine (mem_places_iff.mp member).resolve_left ?_
  rintro ⟨outer, _, rfl⟩
  exact outside rfl

/-- A place outside the module is what the name means by itself or through an import. -/
theorem path_of_mem_outerPlaces (member : place ∈ outerPlaces imports name) :
    place.path = name ∨ ∃ target, IsThrough imports name target place.path := by
  simp only [outerPlaces, List.mem_append, List.mem_map, Option.mem_toList, Option.map_eq_some_iff,
    List.mem_singleton] at member
  rcases member with (⟨target, found, rfl⟩ | ⟨target, inside, rfl⟩) | rfl
  · exact .inr ⟨target, .inl ⟨found, rfl⟩⟩
  · exact .inr ⟨target, .inr ⟨inside, rfl⟩⟩
  · exact .inl rfl

theorem lookup_eq_found_iff {n : Node} : lookup graph s imports scope name = .found n ↔
    (places graph.module imports scope name).findSome? (Place.node? graph s.library) = some n := by
  rw [lookup]
  cases (places graph.module imports scope name).findSome? (Place.node? graph s.library) with
  | some n' => simp
  | none =>
    simp only [reduceCtorEq, iff_false]
    repeat' split
    all_goals exact Lookup.noConfusion

theorem exists_place_of_found {t : Node} (found : lookup graph s imports scope name = .found t) :
    ∃ place ∈ places graph.module imports scope name, Place.node? graph s.library place = some t :=
  List.exists_of_findSome?_eq_some (lookup_eq_found_iff.mp found)

theorem exists_place_of_ghost {target : NodeRef} (lost : lookup graph s imports scope name = .ghost target) :
    (∀ place ∈ places graph.module imports scope name, Place.node? graph s.library place = none) ∧
      ∃ place ∈ places graph.module imports scope name, place.path = target.path := by
  rw [lookup] at lost
  split at lost
  · cases lost
  next none =>
    refine ⟨List.findSome?_eq_none_iff.mp none, ?_⟩
    split at lost
    · cases lost
    · split at lost
      next place found =>
        obtain rfl := Lookup.ghost.inj lost
        exact ⟨place, List.mem_of_find?_eq_some found, rfl⟩
      · cases lost

theorem lookup_eq_missing_iff : lookup graph s imports scope name = .missing ↔
    (∀ place ∈ places graph.module imports scope name, Place.node? graph s.library place = none) ∧
      ∀ previous, s.previous = some previous →
        ∀ place ∈ places graph.module imports scope name, previous.contains place.path = false := by
  rw [← List.findSome?_eq_none_iff, lookup]
  split
  next found => simp [found]
  next none =>
    rw [none]
    cases s.previous with
    | none => simp
    | some previous =>
      simp only [true_and, Option.some.injEq, forall_eq']
      split
      next place found =>
        refine iff_of_false (fun same => nomatch same) fun all => ?_
        have absent := all place (List.mem_of_find?_eq_some found)
        rw [List.find?_some found] at absent
        cases absent
      next absent =>
        refine iff_of_true rfl fun place member => ?_
        exact Bool.eq_false_iff.mpr (List.find?_eq_none.mp absent place member)

/-- A name that leads nowhere still does so with another library just if this has no node for a place outside
the module. -/
theorem lookup_eq_missing_iff_outer {l l' : ModuleLibrary} {given : ImportTable} {previous : Option Snapshot}
    (missing : lookup graph ⟨l, given, previous⟩ imports scope name = .missing) :
    lookup graph ⟨l', given, previous⟩ imports scope name = .missing ↔
      ∀ place ∈ outerPlaces imports name, Place.node? graph l' place = none := by
  obtain ⟨none, noGhost⟩ := lookup_eq_missing_iff.mp missing
  rw [lookup_eq_missing_iff]
  refine ⟨fun ⟨none', _⟩ place member => none' place (mem_places_iff.mpr (.inr member)), fun none' => ⟨?_, noGhost⟩⟩
  intro place member
  rcases mem_places_iff.mp member with ⟨outer, _, rfl⟩ | outside
  · -- in the module itself the library makes no difference
    exact none _ member
  · exact none' place outside

theorem find?_congr {l l' : ModuleLibrary} {path : Path} {pin : Option Version}
    (same : l.owner path pin = l'.owner path pin) : find? graph l path pin = find? graph l' path pin := by
  rw [find?, find?, same]

/-- A place that one library has a node for and another has not lies inside a module in which the two
differ. -/
theorem exists_module_of_node? {l l' : ModuleLibrary} (missing : Place.node? graph l place = none)
    (found : Place.node? graph l' place ≠ none) :
    ∃ outer ∈ ModuleLibrary.outerPaths place.path, l'.modules.find? outer ≠ l.modules.find? outer := by
  obtain ⟨path, reach⟩ := place
  cases reach with
  | module => exact absurd missing found
  | anywhere pin =>
    -- who owns the path depends on the modules around it, and on nothing else in the library
    refine Decidable.by_contra fun unchanged => found ?_
    have same : ∀ outer ∈ ModuleLibrary.outerPaths path, l'.modules.find? outer = l.modules.find? outer :=
      fun outer member => Decidable.by_contra fun differ => unchanged ⟨outer, member, differ⟩
    exact (find?_congr (ModuleLibrary.owner_congr pin same)).trans missing

end Resolution

end Deductions
