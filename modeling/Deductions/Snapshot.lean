import Deductions.Graph

namespace Deductions

structure Snapshot where
  library : String
  version : Version
  /-- The modules with their top-level declarations, in source order. -/
  modules : SortedMap Path (List Path) := SortedMap.empty
  nodes : SortedMap Path Node := SortedMap.empty
  edges : List Edge := []
  /-- The resolved narrations, by the deductions that own them. -/
  narrations : SortedMap Path (List ResolvedStep) := SortedMap.empty
  /-- The nodes of other libraries that this one refers to. -/
  external : SortedSet NodeRef := SortedMap.empty
deriving DecidableEq

/-- A defect that no source can cause. -/
structure IntegrityIssue where
  path : Path
  message : String
deriving DecidableEq

namespace Snapshot

/-- Adds the graph of a module. Where the module or one of its nodes is there already, the path that
is taken. -/
def addModule (s : Snapshot) (graph : ModuleGraph) (narrations : SortedMap Path (List ResolvedStep))
    (external : List NodeRef) : Except Path Snapshot :=
  if s.modules.contains graph.module then .error graph.module
  else
    match graph.nodes.values.find? fun n => s.nodes.contains n.path with
    | some taken => .error taken.path
    | none => .ok { s with
        modules := s.modules.insert graph.module graph.roots
        nodes := graph.nodes.values.foldl (fun nodes n => nodes.insert n.path n) s.nodes
        edges := s.edges ++ graph.edges
        narrations := s.narrations.union narrations
        external := external.foldl SortedSet.insert s.external }

def node? (s : Snapshot) (path : Path) : Option Node := s.nodes.find? path

def contains (s : Snapshot) (path : Path) : Bool := s.nodes.contains path

/-- The module that `path` lies in: the longest that is a proper beginning of it. -/
def moduleOf (s : Snapshot) (path : Path) : Option Path :=
  s.modules.keys.foldl (fun best m =>
    if (path.strip? m).isSome && (best.map Path.length).getD 0 ≤ m.length then some m else best)
    none

/-- Whether `path` is one of the modules or lies in one. -/
def owns (s : Snapshot) (path : Path) : Bool := s.modules.keys.any path.startsWith

/-- Whether a node is there: one of the snapshot's own at the same version, or a recorded node of
another library. -/
def resolves (s : Snapshot) (r : NodeRef) : Bool :=
  match s.node? r.path with
  | some own => own.version == r.version
  | none => !s.owns r.path && s.external.contains r

/-- The graph of one module again. -/
def moduleGraph (s : Snapshot) (module : Path) : Option ModuleGraph :=
  (s.modules.find? module).map fun roots =>
    .ofParts module s.version
      (s.nodes.values.filter fun n => s.moduleOf n.path == some module) roots
      (s.edges.filter fun e => s.moduleOf e.source.path == some module)

def expansions (s : Snapshot) : List Edge := s.edges.filter Edge.isExpansion

def expansionsFrom (s : Snapshot) (source : Path) : List Edge :=
  s.expansions.filter fun e => e.source.path == source

/-- The targets of all expansions, by their sources. -/
def expansionMap (s : Snapshot) : SortedMap Path (List Path) :=
  s.expansions.foldl (fun m e =>
    m.insert e.source.path ((m.find? e.source.path).getD [] ++ e.targets.map NodeRef.path))
    SortedMap.empty

/-- The sources of all expansions, by their targets. -/
def expanders (s : Snapshot) : SortedMap Path (SortedSet Path) :=
  s.expansions.foldl (fun m e =>
    e.targets.foldl (fun m target =>
      m.insert target.path
        (SortedSet.insert ((m.find? target.path).getD SortedMap.empty) e.source.path)) m)
    SortedMap.empty

/-- The issues of the nodes inside the node stored at `key`. `parents` are the nodes that claimed
others before. -/
def childIssues (s : Snapshot) (key : Path) :
    SortedMap Path Path → List Path → List IntegrityIssue × SortedMap Path Path
  | parents, [] => ([], parents)
  | parents, inner :: rest =>
    let missing := if s.contains inner then []
      else [⟨inner, s!"listed as a child of {key} but missing"⟩]
    let claimed := match parents.find? inner with
      | some first => [⟨inner, s!"path assigned under both {first} and {key}"⟩]
      | none => []
    let (issues, parents) := s.childIssues key (parents.insert inner key) rest
    (missing ++ claimed ++ issues, parents)

def nodeIssues (s : Snapshot) :
    SortedMap Path Path → List (Path × Node) → List IntegrityIssue
  | _, [] => []
  | parents, (key, node) :: rest =>
    let misplaced := if key = node.path then []
      else [⟨key, s!"stored under {key} but carries path {node.path}"⟩]
    let outside := if s.owns key then []
      else [⟨key, "node lies outside every module of the snapshot"⟩]
    let (issues, parents) := s.childIssues key parents node.children
    misplaced ++ outside ++ issues ++ s.nodeIssues parents rest

def edgeIssues (s : Snapshot) : List IntegrityIssue :=
  (s.edges.filter fun e => !s.contains e.source.path).map fun e =>
    ⟨e.source.path, s!"edge source missing: {e}"⟩

/-- By path, then by message. -/
protected def IntegrityIssue.le (a b : IntegrityIssue) : Bool :=
  (compareLex (compareOn IntegrityIssue.path) (compareOn IntegrityIssue.message) a b).isLE

/-- All defects of the stored data, sorted. -/
def integrityIssues (s : Snapshot) : List IntegrityIssue :=
  (s.nodeIssues SortedMap.empty s.nodes.entries ++ s.edgeIssues).mergeSort IntegrityIssue.le

end Snapshot

end Deductions
