import Deductions.Snapshot

namespace Deductions

/-- A module at a version. -/
structure ModuleId where
  path : Path
  version : Version
deriving DecidableEq

namespace ModuleId

def text (id : ModuleId) : String := s!"{id.path}@{id.version}"

instance : ToString ModuleId := ⟨text⟩

protected def compare : ModuleId → ModuleId → Ordering :=
  compareLex (compareOn path) (compareOn version)

instance : Ord ModuleId := ⟨ModuleId.compare⟩

instance : Std.TransOrd ModuleId :=
  inferInstanceAs (Std.TransCmp (compareLex (compareOn path) (compareOn version)))

instance : Std.LawfulEqOrd ModuleId where
  eq_of_compare {a b} same := by
    change ModuleId.compare a b = .eq at same
    simp only [ModuleId.compare, compareLex_eq_eq, compareOn, Std.LawfulEqCmp.compare_eq_iff_eq]
      at same
    cases a
    cases b
    simp_all

end ModuleId

def ModuleGraph.id (g : ModuleGraph) : ModuleId := ⟨g.module, g.version⟩

/-- The versions of each module. -/
structure ModuleLibrary where
  modules : SortedMap Path (SortedMap Version ModuleGraph) := SortedMap.empty
deriving DecidableEq

namespace ModuleLibrary

/-- Adds a graph in place of one with the same id. -/
def insert (l : ModuleLibrary) (g : ModuleGraph) : ModuleLibrary :=
  let versions := (l.modules.find? g.module).getD SortedMap.empty
  ⟨l.modules.insert g.module (versions.insert g.version g)⟩

/-- Adds every module of a snapshot. -/
def addSnapshot (l : ModuleLibrary) (s : Snapshot) : ModuleLibrary :=
  (s.modules.keys.filterMap s.moduleGraph).foldl insert l

def get? (l : ModuleLibrary) (id : ModuleId) : Option ModuleGraph :=
  (l.modules.find? id.path).bind fun versions => versions.find? id.version

def containsModule (l : ModuleLibrary) (path : Path) : Bool := l.modules.contains path

/-- The versions of a module, ascending. -/
def versions (l : ModuleLibrary) (path : Path) : List Version :=
  ((l.modules.find? path).map SortedMap.keys).getD []

/-- The graph of a module at the pinned version, or at its highest. -/
def select (l : ModuleLibrary) (path : Path) (pin : Option Version) : Option ModuleGraph :=
  (l.modules.find? path).bind fun versions =>
    match pin with
    | some version => versions.find? version
    | none => versions.last?

/-- The beginnings of a path that are shorter than it, the longest first. -/
def outerPaths (path : Path) : List Path :=
  ((List.range path.length).reverse).filterMap path.take?

/-- The graph that holds the node at `path`: that of the longest module around it which has it. -/
def owner (l : ModuleLibrary) (path : Path) (pin : Option Version) : Option ModuleGraph :=
  ((outerPaths path).filterMap fun module => l.select module pin).find? fun g => g.contains path

def locate (l : ModuleLibrary) (path : Path) (pin : Option Version) : Option Node :=
  (l.owner path pin).bind fun g => g.node? path

/-- The source of an expansion of `target` in a module at `version` other than `exclude`. -/
def expanderOf (l : ModuleLibrary) (target : Path) (version : Version) (exclude : Path) :
    Option Path :=
  let graphs := l.modules.entries.filterMap fun (path, versions) =>
    if path = exclude then none else versions.find? version
  let edges := graphs.flatMap ModuleGraph.edges
  (edges.find? fun e => e.isExpansion && e.targets.any fun t => t.path == target).map
    fun e => e.source.path

/-- All graphs, by module and then by version. -/
def graphs (l : ModuleLibrary) : List ModuleGraph := l.modules.values.flatMap SortedMap.values

end ModuleLibrary

end Deductions
