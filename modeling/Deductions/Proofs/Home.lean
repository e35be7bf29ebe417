import Deductions.Proofs.Graph.Outline
import Deductions.Proofs.Lookup

namespace Deductions

/-- Where every second step has a result after a first one that has, the search for a first step ends at
the same place. -/
theorem exists_findSome?_of_bind {α β γ : Type} {f : α → Option β} {g : α → β → Option γ} {l : List α}
    (total : ∀ a ∈ l, ∀ b, f a = some b → ∃ c, g a b = some c) {c : γ}
    (found : l.findSome? (fun a => (f a).bind (g a)) = some c) :
    ∃ a ∈ l, ∃ b, f a = some b ∧ g a b = some c ∧ l.findSome? f = some b := by
  induction l with
  | nil => cases found
  | cons a l ih =>
    obtain ⟨first, later⟩ := List.forall_mem_cons.mp total
    cases atFirst : f a with
    | none =>
      rw [List.findSome?_cons, atFirst, Option.bind_none] at found
      obtain ⟨a', inside, b, gives, gives', found⟩ := ih later found
      exact ⟨a', List.mem_cons_of_mem _ inside, b, gives, gives', by rw [List.findSome?_cons, atFirst]; exact found⟩
    | some b =>
      obtain ⟨c', gives⟩ := first b atFirst
      rw [List.findSome?_cons, atFirst, Option.bind_some, gives] at found
      cases found
      exact ⟨a, List.mem_cons_self, b, atFirst, gives, by rw [List.findSome?_cons, atFirst]⟩

/-- The graph with the node at the place, if there is one. -/
def Place.home? (graph : ModuleGraph) (library : ModuleLibrary) (place : Place) : Option ModuleGraph :=
  if graph.contains place.path then some graph
  else
    match place.reach with
    | .module => none
    | .anywhere pin => (library.owner place.path pin).filter fun g => g.module ≠ graph.module

namespace Resolution

section

variable (graph : ModuleGraph) (s : Surroundings) (imports : ImportTable)

/-- The graph in which a name is found. -/
def homeOf (scope name : Path) : Option ModuleGraph :=
  (places graph.module imports scope name).findSome? (Place.home? graph s.library)

/-- The graph that owns a node, at its version. -/
def ownerOf (r : NodeRef) : Option ModuleGraph :=
  if graph.contains r.path then some graph else s.library.owner r.path (some r.version)

end

variable {graph : ModuleGraph} {s : Surroundings} {imports : ImportTable}

theorem topLevel_eq (n : Node) :
    topLevel graph s n = ((ownerOf graph s n.ref).bind fun g => g.topLevelOf n.path).map Node.path := rfl

theorem Place.node?_eq {library : ModuleLibrary} (place : Place) :
    Place.node? graph library place = (place.home? graph library).bind fun g => g.node? place.path := by
  obtain ⟨path, reach⟩ := place
  rw [Place.home?]
  by_cases own : graph.contains path = true
  · obtain ⟨n, found⟩ := ModuleGraph.contains_iff.mp own
    rw [if_pos own, Option.bind_some, found]
    cases reach with
    | module => exact found
    | anywhere pin =>
      change find? graph library path pin = some n
      rw [find?, found]
  · have absent : graph.node? path = none := Option.not_isSome_iff_eq_none.mp own
    rw [if_neg own]
    cases reach with
    | module => exact absent
    | anywhere pin =>
      change find? graph library path pin = _
      rw [find?, absent]
      dsimp only
      cases library.owner path pin with
      | none => rfl
      | some g =>
        by_cases same : g.module = graph.module
        · simp [same, Option.filter]
        · simp [same, Option.filter]

/-- A place whose graph is known has a node. Another graph is looked at only for what the module lacks. -/
theorem Place.node?_of_home? {library : ModuleLibrary} {place : Place} {g : ModuleGraph}
    (home : place.home? graph library = some g) : (∃ n, g.node? place.path = some n) ∧
      (g = graph ∨ graph.contains place.path = false ∧ ∃ pin, library.owner place.path pin = some g) := by
  rw [Place.home?] at home
  split at home
  next own =>
    cases home
    exact ⟨ModuleGraph.contains_iff.mp own, .inl rfl⟩
  next absent =>
    cases reach : place.reach with
    | module =>
      rw [reach] at home
      cases home
    | anywhere pin =>
      rw [reach] at home
      obtain ⟨owner, _⟩ := Option.filter_eq_some_iff.mp home
      have inside := ModuleGraph.contains_iff.mp (ModuleLibrary.contains_of_owner owner)
      exact ⟨inside, .inr ⟨Bool.eq_false_iff.mpr absent, pin, owner⟩⟩

/-- A name that leads to a node finds it in a graph, of the module itself or of the library. -/
theorem exists_home {scope name : Path} {t : Node} (found : lookup graph s imports scope name = .found t) :
    ∃ g path, homeOf graph s imports scope name = some g ∧ g.node? path = some t ∧
      (g = graph ∨ graph.contains path = false ∧ ∃ pin, s.library.owner path pin = some g) := by
  have atPlace := lookup_eq_found_iff.mp found
  have steps : Place.node? graph s.library =
      fun place => (place.home? graph s.library).bind fun g => g.node? place.path := funext Place.node?_eq
  rw [steps] at atPlace
  obtain ⟨place, _, g, home, node, first⟩ := exists_findSome?_of_bind
    (fun place _ g home => (Place.node?_of_home? home).1) atPlace
  exact ⟨g, place.path, first, node, (Place.node?_of_home? home).2⟩

end Resolution

/-- Every graph comes from a module that compiled at the version. -/
def ModuleLibrary.IsCompiled (l : ModuleLibrary) : Prop := ∀ id g, l.get? id = some g → g.IsCompiledAt id.version

namespace ModuleLibrary

theorem isCompiled_empty : IsCompiled {} := fun _ _ held => nomatch held

theorem IsCompiled.insert {l : ModuleLibrary} (compiled : l.IsCompiled) {s : ModuleSource}
    {surroundings : Surroundings} {m : ResolvedModule} (compiles : s.compile surroundings = .ok m) :
    (l.insert m.graph).IsCompiled := by
  intro id g held
  by_cases same : id = m.graph.id
  · rw [same, get?_insert_self] at held
    cases held
    obtain ⟨c, built, resolved⟩ := ModuleSource.compile_eq_ok.mp compiles
    refine ⟨s, ?_, surroundings, m, compiles, rfl⟩
    rw [same, ModuleSource.id_of_resolve built resolved]
    rfl
  · rw [get?_insert_of_ne l same] at held
    exact compiled id g held

end ModuleLibrary

namespace ModuleGraph

/-- The edges of a graph have no part in its outline. -/
theorem IsOutline.withEdges {g : ModuleGraph} {source : Source} (outline : g.IsOutline source)
    (edges : List Edge) : IsOutline { g with edges := edges } source where
  forest := outline.forest.withEdges edges
  stored := outline.stored
  roots := outline.roots

theorem IsCompiledAt.exists_outline {g : ModuleGraph} {version : Version} (compiled : g.IsCompiledAt version) :
    ∃ source, g.IsOutline source := by
  obtain ⟨s, rfl, surroundings, m, compiled, rfl⟩ := compiled
  obtain ⟨c, built, resolved⟩ := ModuleSource.compile_eq_ok.mp compiled
  obtain ⟨source, wellFormed, build⟩ := s.build_eq_ok built
  rw [(Candidate.resolve_eq_ok_of_build build surroundings resolved).1]
  exact ⟨source, (Candidate.isOutline_of_build wellFormed build).withEdges _⟩

/-- Every node lies in a top-level declaration, which has its version. -/
theorem IsOutline.exists_topLevelOf {g : ModuleGraph} {source : Source} (outline : g.IsOutline source) {path : Path}
    {t : Node} (found : g.node? path = some t) :
    ∃ d, g.topLevelOf t.path = some d ∧ d.version = t.version := by
  have stored : g.node? t.path = some t := outline.forest.keyed path t found ▸ found
  have member := outline.perm_values.mem_iff.mpr (outline.forest.keyed.mem_values_iff.mpr stored)
  obtain ⟨p, inside, rfl⟩ := List.mem_map.mp member
  exact ⟨_, outline.topLevelOf_eq inside, rfl⟩

end ModuleGraph

/-- A graph of a compiled library that owns a node at a version has that version. -/
theorem ModuleLibrary.IsCompiled.of_owner {l : ModuleLibrary} (compiled : l.IsCompiled) {path : Path}
    {pin : Option Version} {g : ModuleGraph} (owner : l.owner path pin = some g) :
    (∃ source, g.IsOutline source) ∧ ∀ version, pin = some version → g.version = version := by
  obtain ⟨outer, _, selected⟩ := select_of_owner owner
  constructor
  · obtain ⟨version, held⟩ := get?_of_select selected
    exact (compiled _ _ held).exists_outline
  · rintro version rfl
    exact (compiled ⟨outer, version⟩ g selected).version_eq

section

variable {graph : ModuleGraph} {source : Source} (outline : graph.IsOutline source) {s : Surroundings}
  (compiled : s.library.IsCompiled) {imports : ImportTable} {scope name : Path} {t : Node} {g : ModuleGraph}
  (found : Resolution.lookup graph s imports scope name = .found t)
  (home : Resolution.homeOf graph s imports scope name = some g)
include outline compiled found home

/-- What is found in a compiled library or in the module itself is a block there. -/
theorem Resolution.outline_of_home : (∃ source', g.IsOutline source') ∧ g.node? t.path = some t ∧
    (g = graph ∨ graph.contains t.path = false ∧ ∃ pin, s.library.owner t.path pin = some g) := by
  obtain ⟨g', path, home', node, origin⟩ := exists_home found
  cases home.symm.trans home'
  have inside : ∃ source', g.IsOutline source' := by
    rcases origin with rfl | ⟨_, _, owner⟩
    · exact ⟨source, outline⟩
    · exact (compiled.of_owner owner).1
  obtain ⟨source', outline'⟩ := inside
  have own : t.path = path := outline'.forest.keyed path t node
  exact ⟨⟨source', outline'⟩, own ▸ node, own ▸ origin⟩

theorem Resolution.exists_topLevelOf : ∃ d, g.topLevelOf t.path = some d ∧ d.version = t.version := by
  obtain ⟨⟨_, outline'⟩, node, _⟩ := outline_of_home outline compiled found home
  exact outline'.exists_topLevelOf node

/-- The graph in which a name finds a node owns it, unless it was found in the library without a version. -/
theorem Resolution.ownerOf_or_unpinned :
    ownerOf graph s t.ref = some g ∨ s.library.owner t.path none = some g := by
  obtain ⟨⟨_, outline'⟩, node, origin⟩ := outline_of_home outline compiled found home
  rcases origin with rfl | ⟨absent, pin, owner⟩
  · exact .inl (if_pos (ModuleGraph.contains_iff.mpr ⟨t, node⟩))
  · cases pin with
    | none => exact .inr owner
    | some version =>
      have same : t.version = version :=
        (outline'.forest.sound _ t node).1.trans ((compiled.of_owner owner).2 version rfl)
      left
      rw [ownerOf, Node.ref, if_neg (by simp [absent]), same]
      exact owner

end

end Deductions
