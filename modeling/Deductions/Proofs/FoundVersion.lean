import Deductions.Proofs.Import.Pins
import Deductions.Proofs.Typing

namespace Deductions

namespace ModuleLibrary

/-- Every node has its own path, and the version under which its graph is held. -/
def IsStamped (l : ModuleLibrary) : Prop :=
  ∀ id g, l.get? id = some g → ∀ path n, g.node? path = some n → n.path = path ∧ n.version = id.version

theorem IsCompiled.isStamped {l : ModuleLibrary} (compiled : l.IsCompiled) : l.IsStamped := by
  intro id g held path n found
  have compiled := compiled id g held
  exact ⟨compiled.isForest.keyed path n found, (compiled.isForest.sound path n found).1.trans compiled.version_eq⟩

/-- The graph is held under its id, and none of its module at a higher version. -/
structure IsHighest (l : ModuleLibrary) (g : ModuleGraph) : Prop where
  held : l.get? g.id = some g
  highest : ∀ version g', l.get? ⟨g.module, version⟩ = some g' → version = g.version ∨ version < g.version

variable {l : ModuleLibrary} {path : Path} {g : ModuleGraph}

/-- A path is owned at a pinned version by a graph of that version. -/
theorem get?_of_owner (keyed : l.IsKeyed) {version : Version} (owner : l.owner path (some version) = some g) :
    g.version = version ∧ l.get? g.id = some g := by
  obtain ⟨outer, _, selected⟩ := select_of_owner owner
  have held : l.get? ⟨outer, version⟩ = some g := selected
  have id := keyed _ _ held
  exact ⟨congrArg ModuleId.version id, id ▸ held⟩

/-- Without a pin a path is owned by the highest version of a module. -/
theorem isHighest_of_owner (keyed : l.IsKeyed) (owner : l.owner path none = some g) : l.IsHighest g := by
  obtain ⟨outer, _, selected⟩ := select_of_owner owner
  obtain ⟨version, held, highest⟩ := highest_of_select selected
  have id := keyed _ _ held
  have module : g.module = outer := congrArg ModuleId.path id
  have version : g.version = version := congrArg ModuleId.version id
  exact ⟨id ▸ held, fun version' g' held' => version ▸ highest version' g' (module ▸ held')⟩

end ModuleLibrary

namespace Resolution

section

variable (graph : ModuleGraph) (library : ModuleLibrary) (imports : ImportTable) (scope name : Path)

/-- The place is the first for the name that has a node, and `n` is this node. -/
def IsFoundAt (place : Place) (n : Node) : Prop :=
  ∃ before after, places graph.module imports scope name = before ++ place :: after ∧
    (∀ earlier ∈ before, Place.node? graph library earlier = none) ∧ Place.node? graph library place = some n

/-- The name finds `n` at the place of an entry of the import table, that of its first segment or a wildcard. -/
def IsFoundThrough (target : ImportTarget) (n : Node) : Prop :=
  ∃ place, IsFoundAt graph library imports scope name place n ∧ place.reach = .anywhere target.version ∧
    IsThrough imports name target place.path

/-- What is found through a pinned entry has the version of the pin. -/
def HonoursPins : Prop :=
  ∀ target version n, IsFoundThrough graph library imports scope name target n → target.version = some version →
    n.version = version

/-- What is found in another module, through an entry without a version or as an absolute path, is found in the
highest version of that module. -/
def TakesHighest : Prop :=
  ∀ place n, IsFoundAt graph library imports scope name place n → place.reach = .anywhere none →
    graph.node? n.path ≠ some n → ∃ g, library.IsHighest g ∧ g.module ≠ graph.module ∧
      g.node? n.path = some n ∧ n.version = g.version

end

variable {graph : ModuleGraph} {library : ModuleLibrary} {imports : ImportTable} {scope name : Path}

/-- What a name leads to is the node at the first place that has one. -/
theorem lookup_eq_found_iff_isFoundAt {s : Surroundings} {n : Node} :
    lookup graph s imports scope name = .found n ↔
      ∃ place, IsFoundAt graph s.library imports scope name place n := by
  rw [lookup_eq_found_iff, List.findSome?_eq_some_iff]
  constructor
  · rintro ⟨before, place, after, split, found, none⟩
    exact ⟨place, before, after, split, none, found⟩
  · rintro ⟨place, before, after, split, none, found⟩
    exact ⟨before, place, after, split, found, none⟩

/-- Where no scope has the name, the entry for its first segment is next. -/
theorem isFoundThrough_of_get? {target : ImportTarget} {n : Node} (entry : imports.get? name.head = some target)
    (unscoped : ∀ outer ∈ scopes graph.module scope, graph.node? (outer.join name) = none)
    (found : find? graph library (throughImport target name) target.version = some n) :
    IsFoundThrough graph library imports scope name target n := by
  have order : ∃ after, places graph.module imports scope name =
      (scopes graph.module scope).map (fun outer => ⟨outer.join name, .module⟩) ++
        ⟨throughImport target name, .anywhere target.version⟩ :: after := by
    rw [places, entry, Option.map_some, Option.toList_some, List.append_assoc, List.append_assoc,
      List.singleton_append]
    exact ⟨_, rfl⟩
  obtain ⟨after, order⟩ := order
  refine ⟨_, ⟨_, after, order, fun earlier member => ?_, found⟩, rfl, .inl ⟨entry, rfl⟩⟩
  obtain ⟨outer, inside, rfl⟩ := List.mem_map.mp member
  exact unscoped outer inside

/-- A place anywhere gives the node of the module itself, or else what another module owns. -/
theorem find?_eq_some_iff {path : Path} {pin : Option Version} {n : Node} :
    find? graph library path pin = some n ↔ graph.node? path = some n ∨ graph.node? path = none ∧
      ∃ g, library.owner path pin = some g ∧ g.module ≠ graph.module ∧ g.node? path = some n := by
  rw [find?]
  cases graph.node? path with
  | some own => simp
  | none =>
    cases library.owner path pin with
    | none => simp
    | some g =>
      by_cases same : g.module = graph.module
      · simp [same]
      · simp [same]

section

variable (keyed : library.IsKeyed) (stamped : library.IsStamped)
include keyed stamped

/-- A pin is not asked for what the module itself has, and gives its version everywhere else. -/
theorem version_of_pinned {place : Place} {version : Version} {n : Node}
    (found : Place.node? graph library place = some n) (pinned : place.reach = .anywhere (some version)) :
    graph.node? place.path = some n ∨ n.version = version := by
  obtain ⟨path, reach⟩ := place
  cases pinned
  rcases find?_eq_some_iff.mp found with inside | ⟨_, g, owner, _, outside⟩
  · exact .inl inside
  · obtain ⟨sameVersion, held⟩ := ModuleLibrary.get?_of_owner keyed owner
    exact .inr ((stamped _ _ held path n outside).2.trans sameVersion)

theorem takesHighest (own : graph.IsKeyed) : TakesHighest graph library imports scope name := by
  rintro ⟨path, reach⟩ n ⟨_, _, _, _, found⟩ unpinned other
  cases unpinned
  rcases find?_eq_some_iff.mp found with inside | ⟨_, g, owner, apart, outside⟩
  · exact absurd (own path n inside ▸ inside) other
  · have highest := ModuleLibrary.isHighest_of_owner keyed owner
    obtain ⟨atPath, sameVersion⟩ := stamped _ _ highest.held path n outside
    exact ⟨g, highest, apart, atPath ▸ outside, sameVersion⟩

end

end Resolution

open Resolution

/-- A name leads to the node at the first place that has one. In other modules this node has the version of the
pin or comes from the highest version of the module; so pins are honoured exactly if each pinned entry through
which a node of the module itself is found is pinned to the version of the module. -/
theorem ModuleSource.honoursPins_iff {s : ModuleSource} {c : Candidate} (built : s.build = .ok c)
    {surroundings : Surroundings} (keyed : surroundings.library.IsKeyed) (stamped : surroundings.library.IsStamped)
    (scope name : Path) :
    (∀ n, lookup c.graph surroundings (c.imports.mergedWith surroundings.imports) scope name = .found n ↔
      ∃ place, IsFoundAt c.graph surroundings.library (c.imports.mergedWith surroundings.imports) scope name place n) ∧
    TakesHighest c.graph surroundings.library (c.imports.mergedWith surroundings.imports) scope name ∧
    (HonoursPins c.graph surroundings.library (c.imports.mergedWith surroundings.imports) scope name ↔
      ∀ target version n,
        IsFoundThrough c.graph surroundings.library (c.imports.mergedWith surroundings.imports) scope name target n →
        target.version = some version → c.graph.node? n.path = some n → version = s.version) := by
  obtain ⟨source, _, build⟩ := s.build_eq_ok built
  have forest := Candidate.isForest_of_build build
  have ownVersion : ∀ path n, c.graph.node? path = some n → n.version = s.version := fun path n inside =>
    (forest.sound path n inside).1.trans (Candidate.frame_of_build build).2.1
  refine ⟨fun n => lookup_eq_found_iff_isFoundAt, takesHighest keyed stamped forest.keyed, ?_, ?_⟩
  · intro honours target version n isFound pinned inside
    exact (honours target version n isFound pinned).symm.trans (ownVersion _ n inside)
  · intro same target version n isFound pinned
    have ⟨place, ⟨_, _, _, _, found⟩, reach, _⟩ := isFound
    rw [pinned] at reach
    rcases version_of_pinned keyed stamped found reach with inside | sameVersion
    · have own := forest.keyed place.path n inside
      exact (ownVersion _ n inside).trans (same target version n isFound pinned (own ▸ inside)).symm
    · exact sameVersion

theorem isKeyed_libraryOf {sources : List ModuleSource} {library : ModuleLibrary}
    (collected : libraryOf sources = some library) : library.IsKeyed := by
  induction sources generalizing library with
  | nil =>
    cases collected
    exact ModuleLibrary.isKeyed_empty
  | cons s sources ih =>
    simp only [libraryOf, bind, Option.bind_eq_some_iff, pure, Option.some.injEq] at collected
    obtain ⟨before, collected, m, _, rfl⟩ := collected
    exact (ih collected).foldl_insert [m.graph]

/-- A name for the module at its first version. -/
def firstImports : ImportTable := ImportTable.insert {} "X" ⟨pairSource.path, some pairSource.version⟩

/-- The module is there at a later version too, and the name leads to the first. -/
theorem ModuleSource.honoursPins_iff_pairingSource : ∃ library c n, pairingSource.build = .ok c ∧
    library.IsKeyed ∧ library.IsStamped ∧ library.versions pairSource.path = [pairSource.version, .plain 2 0 0] ∧
    n.ref = ⟨(pairSource.path.child "T").child "C", pairSource.version⟩ ∧
    (∃ place, IsFoundAt c.graph library (c.imports.mergedWith firstImports) pairingSource.path n.path place n) ∧
    TakesHighest c.graph library (c.imports.mergedWith firstImports) pairingSource.path n.path ∧
    HonoursPins c.graph library (c.imports.mergedWith firstImports) pairingSource.path n.path := by
  have finds : ((libraryOf [pairSource, { pairSource with version := .plain 2 0 0 }]).bind fun library =>
      pairingSource.build.toOption.bind fun c => (lookup c.graph { library := library }
        (c.imports.mergedWith firstImports) pairingSource.path ((pairSource.path.child "T").child "C")).node?.map
          fun n => (library.versions pairSource.path, n.ref, c.graph.contains n.path)) =
      some ([pairSource.version, .plain 2 0 0], ⟨(pairSource.path.child "T").child "C", pairSource.version⟩, false) := by
    decide +kernel
  obtain ⟨library, collected, finds⟩ := Option.bind_eq_some_iff.mp finds
  obtain ⟨c, built, finds⟩ := Option.bind_eq_some_iff.mp finds
  obtain ⟨n, found, shape⟩ := Option.map_eq_some_iff.mp finds
  obtain ⟨versions, shape⟩ := Prod.mk.inj shape
  obtain ⟨ref, outside⟩ := Prod.mk.inj shape
  have built := Batch.toOption_eq_some_iff.mp built
  have keyed := isKeyed_libraryOf collected
  have stamped := (isCompiled_libraryOf collected).isStamped
  have path : n.path = (pairSource.path.child "T").child "C" := congrArg NodeRef.path ref
  rw [← path] at found
  have found : lookup c.graph { library := library } (c.imports.mergedWith firstImports) pairingSource.path n.path =
      .found n := by
    cases result : lookup c.graph { library := library } (c.imports.mergedWith firstImports) pairingSource.path n.path with
    | found n' =>
      rw [result] at found
      cases found
      rfl
    | ghost | missing =>
      rw [result] at found
      cases found
  have held : (Surroundings.mk library firstImports none).library.IsKeyed := keyed
  obtain ⟨finds, highest, honours⟩ := honoursPins_iff built held stamped pairingSource.path n.path
  refine ⟨library, c, n, built, keyed, stamped, versions, ref, (finds n).mp found, highest, honours.mpr ?_⟩
  rintro target version n' ⟨place, isFound, _⟩ _ inside
  have same := (finds n').mpr ⟨place, isFound⟩
  cases found.symm.trans same
  rw [ModuleGraph.contains_iff.mpr ⟨n, inside⟩] at outside
  cases outside

/-- A module with a block inside the path that another block of it has for its module. -/
def coveringSource : ModuleSource := ⟨.single "p", .plain 1 0 0,
  "deduc q \x7b subdeduc X \x7b asrt C \x7b en = \"c\" \x7d \x7d \x7d deduc P of X.C \x7b\x7d"⟩

/-- The other module. -/
def coveredSource : ModuleSource :=
  ⟨coveringSource.path.child "q", .plain 3 0 0, "deduc X \x7b asrt C \x7b en = \"c\" \x7d \x7d"⟩

def coveredImports : ImportTable :=
  ImportTable.insert {} "X" ⟨coveredSource.path.child "X", some coveredSource.version⟩

/-- The name is pinned to the other module at its version, and leads to the node of the module itself. -/
theorem coveringSource_overrides_pin : ∃ library c m, library.IsCompiled ∧ library.IsKeyed ∧
    coveringSource.build = .ok c ∧
    library.locate ((coveredSource.path.child "X").child "C") (some coveredSource.version) ≠ none ∧
    coveringSource.compile { library := library, imports := coveredImports } = .ok m ∧
    m.graph.edges = [.expansion ⟨coveringSource.path.child "P", coveringSource.version⟩
      [⟨(coveredSource.path.child "X").child "C", coveringSource.version⟩] .declared] ∧
    ¬ HonoursPins c.graph library (c.imports.mergedWith coveredImports) coveringSource.path
      ((Path.single "X").child "C") := by
  have compiles : ((libraryOf [coveredSource]).bind fun library => coveringSource.build.toOption.bind fun c =>
      (coveringSource.compile { library := library, imports := coveredImports }).toOption.bind fun m =>
        (find? c.graph library ((coveredSource.path.child "X").child "C") (some coveredSource.version)).map fun n =>
          (m.graph.edges, n.version, (library.locate ((coveredSource.path.child "X").child "C")
            (some coveredSource.version)).isSome, (c.imports.mergedWith coveredImports).get? "X",
          (scopes c.graph.module coveringSource.path).map fun outer =>
            c.graph.contains (outer.join ((Path.single "X").child "C")))) =
      some ([.expansion ⟨coveringSource.path.child "P", coveringSource.version⟩
          [⟨(coveredSource.path.child "X").child "C", coveringSource.version⟩] .declared], coveringSource.version, true,
        some ⟨coveredSource.path.child "X", some coveredSource.version⟩, [false]) := by decide +kernel
  obtain ⟨library, collected, compiles⟩ := Option.bind_eq_some_iff.mp compiles
  obtain ⟨c, built, compiles⟩ := Option.bind_eq_some_iff.mp compiles
  obtain ⟨m, compiles, finds⟩ := Option.bind_eq_some_iff.mp compiles
  obtain ⟨n, found, shape⟩ := Option.map_eq_some_iff.mp finds
  simp only [Prod.mk.injEq] at shape
  obtain ⟨edges, version, there, entry, unscoped⟩ := shape
  refine ⟨library, c, m, isCompiled_libraryOf collected, isKeyed_libraryOf collected,
    Batch.toOption_eq_some_iff.mp built, Option.isSome_iff_ne_none.mp there, Batch.toOption_eq_some_iff.mp compiles,
    edges, fun honours => ?_⟩
  have absent : ∀ outer ∈ scopes c.graph.module coveringSource.path,
      c.graph.node? (outer.join ((Path.single "X").child "C")) = none := by
    intro outer inside
    have missing := List.mem_map_of_mem (f := fun outer =>
      c.graph.contains (outer.join ((Path.single "X").child "C"))) inside
    rw [unscoped, List.mem_singleton] at missing
    exact Option.not_isSome_iff_eq_none.mp (Bool.eq_false_iff.mp missing)
  have pinned := honours _ _ n (isFoundThrough_of_get? entry absent found) rfl
  rw [version] at pinned
  exact absurd pinned (by decide)

end Deductions
