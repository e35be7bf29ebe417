import Deductions.Proofs.Import
import Deductions.Proofs.Library
import Deductions.Proofs.Lookup
import Deductions.Proofs.Retag.Build

namespace Deductions

variable {f : Version → Version}

theorem Import.isUnpinned_bind (i : Import) (base : Path) {t : ImportTable} (unpinned : t.IsUnpinned) :
    (i.bind base t).IsUnpinned := by
  rw [bind]
  cases i.form with
  | whole newName => exact unpinned.insert _ _
  | everything => exact unpinned.insertGlob _
  | names list =>
    dsimp only
    induction list generalizing t with
    | nil => exact unpinned
    | cons n list ih => exact ih (unpinned.insert _ _)

/-- A source asks for no versions. -/
theorem isUnpinned_buildImports (module : Path) (imports : List Import) :
    (buildImports module imports).1.IsUnpinned := by
  rw [buildImports]
  refine List.foldlRecOn (motive := fun built : ImportTable × List BuildError => built.1.IsUnpinned) imports _ .empty ?_
  rintro ⟨table, errors⟩ unpinned i _
  dsimp only
  split
  · exact unpinned
  · exact i.isUnpinned_bind _ unpinned

theorem Candidate.isUnpinned_of_build {module : Path} {version : Version} {source : Source} {c : Candidate}
    (built : Candidate.build module version source = .ok c) : c.imports.IsUnpinned := by
  obtain ⟨errors, rfl⟩ := Candidate.build_eq_ok built
  exact isUnpinned_buildImports module source.imports

namespace ModuleLibrary

/-- The library that holds the graphs at one version, and nothing else. -/
def ofGraphs (version : Version) (graphs : SortedMap Path ModuleGraph) : ModuleLibrary :=
  ⟨graphs.mapValues fun g => SortedMap.empty.insert version g⟩

def retagGraphs (f : Version → Version) (graphs : SortedMap Path ModuleGraph) : SortedMap Path ModuleGraph :=
  graphs.mapValues (ModuleGraph.retag f)

variable {version : Version} {graphs : SortedMap Path ModuleGraph}

theorem insert_ofGraphs {g : ModuleGraph} (atVersion : g.version = version) :
    (ofGraphs version graphs).insert g = ofGraphs version (graphs.insert g.module g) := by
  rw [insert, ofGraphs, ofGraphs, SortedMap.mapValues_insert, SortedMap.find?_mapValues, atVersion]
  cases graphs.find? g.module with
  | none => rfl
  | some old => rw [Option.map_some, Option.getD_some, SortedMap.insert_insert_self]

theorem select_ofGraphs {pin : Option Version} (allowed : ∀ asked ∈ pin, asked = version) (path : Path) :
    (ofGraphs version graphs).select path pin = graphs.find? path := by
  rw [select, ofGraphs, SortedMap.find?_mapValues]
  cases graphs.find? path with
  | none => rfl
  | some g =>
    cases pin with
    | none => rfl
    | some asked =>
      rw [allowed asked rfl]
      exact SortedMap.find?_insert_self _ _ _

theorem owner_retag {pin pin' : Option Version} (allowed : ∀ asked ∈ pin, asked = version)
    (allowed' : ∀ asked ∈ pin', asked = f version) (path : Path) :
    (ofGraphs (f version) (retagGraphs f graphs)).owner path pin' =
      ((ofGraphs version graphs).owner path pin).map (ModuleGraph.retag f) := by
  rw [owner, owner]
  simp only [select_ofGraphs allowed, select_ofGraphs allowed', retagGraphs, SortedMap.find?_mapValues]
  rw [← List.map_filterMap, List.find?_map]
  congr 2
  funext g
  exact g.contains_retag path

theorem expanderOf_ofGraphs (target exclude : Path) : (ofGraphs version graphs).expanderOf target version exclude =
    (((graphs.entries.filter fun e => e.1 ≠ exclude).flatMap fun e => e.2.edges).find? fun e =>
      e.isExpansion && e.targets.any fun t => t.path == target).map fun e => e.source.path := by
  have held : (graphs.entries.map fun e => (e.1, SortedMap.empty.insert version e.2)).filterMap
      (fun e => if e.1 = exclude then none else e.2.find? version) =
        (graphs.entries.filter fun e => e.1 ≠ exclude).map Prod.snd := by
    rw [List.filterMap_map, ← List.filterMap_eq_map, List.filterMap_filter]
    refine List.filterMap_congr fun e _ => ?_
    by_cases same : e.1 = exclude
    · simp [same]
    · simp [same]
  rw [expanderOf]
  dsimp only [ofGraphs, SortedMap.mapValues]
  rw [held, List.flatMap_map]

theorem expanderOf_retag (target exclude : Path) :
    (ofGraphs (f version) (retagGraphs f graphs)).expanderOf target (f version) exclude =
      (ofGraphs version graphs).expanderOf target version exclude := by
  rw [expanderOf_ofGraphs, expanderOf_ofGraphs]
  have edges : ((retagGraphs f graphs).entries.filter fun e => e.1 ≠ exclude).flatMap (fun e => e.2.edges) =
      ((graphs.entries.filter fun e => e.1 ≠ exclude).flatMap fun e => e.2.edges).map (Edge.retag f) := by
    rw [retagGraphs, SortedMap.mapValues, List.filter_map, List.flatMap_map, List.map_flatMap]
    rfl
  have leads : ∀ e : Edge, ((e.retag f).isExpansion && (e.retag f).targets.any fun t => t.path == target) =
      (e.isExpansion && e.targets.any fun t => t.path == target) := by
    intro e
    rw [Edge.isExpansion_retag, Edge.targets_retag, List.any_map]
    rfl
  rw [edges, List.find?_map, Option.map_map]
  simp only [Function.comp_def, leads, Edge.source_retag, NodeRef.path_retag]

end ModuleLibrary

def Lookup.retag (f : Version → Version) : Lookup → Lookup
  | .found n => .found (n.retag f)
  | .ghost target => .ghost (target.retag f)
  | .missing => .missing

@[simp] theorem Lookup.node?_retag (result : Lookup) : (result.retag f).node? = result.node?.map (Node.retag f) := by
  cases result <;> rfl

namespace Resolution

/-- The second surroundings are those of the same module under other tags. What the previous version has is
left open. -/
structure IsRetagged (f : Version → Version) (graph : ModuleGraph) (s s' : Surroundings) : Prop where
  owner : ∀ path, s'.library.owner path none = (s.library.owner path none).map (ModuleGraph.retag f)
  ownerAt : ∀ path, s'.library.owner path (some (f graph.version)) =
    (s.library.owner path (some graph.version)).map (ModuleGraph.retag f)
  expander : ∀ target, s'.library.expanderOf target (f graph.version) graph.module =
    s.library.expanderOf target graph.version graph.module
  atVersion : ∀ path n, find? graph s.library path none = some n → n.version = graph.version

variable {graph : ModuleGraph} {s s' : Surroundings} (retagged : IsRetagged f graph s s')
include retagged

theorem IsRetagged.find? (path : Path) : Resolution.find? (graph.retag f) s'.library path none =
    (Resolution.find? graph s.library path none).map (Node.retag f) := by
  rw [Resolution.find?, Resolution.find?, ModuleGraph.node?_retag, retagged.owner]
  cases graph.node? path with
  | some n => rfl
  | none =>
    cases s.library.owner path none with
    | none => rfl
    | some g =>
      by_cases own : g.module = graph.module
      · simp only [Option.map_some, ModuleGraph.module_retag, own, if_true, Option.map_none]
      · simp only [Option.map_some, Option.map_none, ModuleGraph.module_retag, own, if_false,
          ModuleGraph.node?_retag]

omit retagged in
/-- Where imports ask for no version, no place does. -/
theorem reach_of_mem_places {module scope name : Path} {imports : ImportTable} (unpinned : imports.IsUnpinned)
    {place : Place} (member : place ∈ places module imports scope name) :
    place.reach = .module ∨ place.reach = .anywhere none := by
  simp only [places, List.mem_append, List.mem_map, Option.mem_toList, Option.map_eq_some_iff,
    List.mem_singleton] at member
  rcases member with ((⟨outer, _, rfl⟩ | ⟨target, found, rfl⟩) | ⟨target, inside, rfl⟩) | rfl
  · exact .inl rfl
  · exact .inr (congrArg Reach.anywhere (unpinned.1 _ target found))
  · exact .inr (congrArg Reach.anywhere (unpinned.2 target inside))
  · exact .inr rfl

theorem IsRetagged.placeNode? {place : Place} (open' : place.reach = .module ∨ place.reach = .anywhere none) :
    Place.node? (graph.retag f) s'.library place = (Place.node? graph s.library place).map (Node.retag f) := by
  obtain ⟨path, reach⟩ := place
  rcases open' with rfl | rfl
  · exact graph.node?_retag path
  · exact retagged.find? path

/-- A name that leads to a node leads to this node under other tags as well. -/
theorem IsRetagged.lookup {imports : ImportTable} (unpinned : imports.IsUnpinned) {scope name : Path} {n : Node}
    (found : Resolution.lookup graph s imports scope name = .found n) :
    Resolution.lookup (graph.retag f) s' imports scope name = .found (n.retag f) := by
  rw [lookup_eq_found_iff] at found ⊢
  -- place by place, none of which asks for a version
  have same : ∀ l ⊆ places graph.module imports scope name, l.findSome? (Place.node? (graph.retag f) s'.library) =
      (l.findSome? (Place.node? graph s.library)).map (Node.retag f) := by
    intro l inside
    induction l with
    | nil => rfl
    | cons place l ih =>
      obtain ⟨member, later⟩ := List.cons_subset.mp inside
      rw [List.findSome?_cons, List.findSome?_cons, retagged.placeNode? (reach_of_mem_places unpinned member),
        ih later]
      cases Place.node? graph s.library place <;> rfl
  rw [ModuleGraph.module_retag, same _ (List.Subset.refl _), found, Option.map_some]

theorem IsRetagged.version_of_found {imports : ImportTable} (unpinned : imports.IsUnpinned) {scope name : Path}
    {n : Node} (found : Resolution.lookup graph s imports scope name = .found n) :
    n.version = graph.version := by
  obtain ⟨⟨path, reach⟩, member, atPlace⟩ := exists_place_of_found found
  rcases reach_of_mem_places unpinned member with rfl | rfl
  · refine retagged.atVersion path n ?_
    rw [Resolution.find?, show graph.node? path = some n from atPlace]
  · exact retagged.atVersion path n atPlace

/-- The top-level declaration around a node has no tag. -/
theorem IsRetagged.topLevel {n : Node} (atVersion : n.version = graph.version) :
    Resolution.topLevel (graph.retag f) s' (n.retag f) = Resolution.topLevel graph s n := by
  have around : ∀ g : ModuleGraph, ((g.retag f).topLevelOf n.path).map Node.path =
      (g.topLevelOf n.path).map Node.path := by
    intro g
    rw [ModuleGraph.topLevelOf, ModuleGraph.topLevelOf, ModuleGraph.module_retag]
    cases n.path.strip? g.module with
    | none => rfl
    | some inner =>
      rw [Option.bind_some, Option.bind_some, ModuleGraph.node?_retag, Option.map_map]
      rfl
  have version : (n.retag f).version = f graph.version := congrArg f atVersion
  rw [Resolution.topLevel, Resolution.topLevel, Node.path_retag, ModuleGraph.contains_retag, version, atVersion,
    retagged.ownerAt]
  by_cases own : graph.contains n.path = true
  · rw [if_pos own, if_pos own]
    exact around graph
  · rw [if_neg own, if_neg own]
    cases s.library.owner n.path (some graph.version) with
    | none => rfl
    | some g => exact around g

end Resolution

end Deductions
