import Deductions.Edge
import Deductions.Node

namespace Deductions

inductive GraphError where
  | nodeNotFound (node : Path)
  | duplicatePath (node : Path)
  | foreignNode (node module : Path)
  | versionMismatch (node : Path) (expected found : Version)
  | danglingEdge (kind : EdgeKind) (source target : Path)
  | multipleExpansion (source : Path)
  | illegalNesting (node : Path) (kind inner : NodeKind)
  | unknownField (node : Path) (kind : NodeKind) (field : String)
  | missingField (node : Path) (kind : NodeKind) (expected : List String)
deriving DecidableEq

def GraphError.message : GraphError → String
  | .nodeNotFound node => s!"node not found: {node}"
  | .duplicatePath node => s!"duplicate node path: {node}"
  | .foreignNode node module => s!"node {node} does not belong to module {module}"
  | .versionMismatch node expected found =>
    s!"node {node} has version {found}, module is at {expected}"
  | .danglingEdge kind source target =>
    s!"{kind} edge from {source} is dangling: {target} is not a node of this module"
  | .multipleExpansion source => s!"node {source} is the source of more than one expansion edge"
  | .illegalNesting node kind inner => s!"{kind} {node} may not contain a {inner} block"
  | .unknownField node kind field => s!"{kind} {node} has unknown field '{field}'"
  | .missingField node kind expected =>
    s!"{kind} {node} requires at least one of the fields: " ++ ", ".intercalate expected

structure ModuleGraph where
  module : Path
  version : Version
  nodes : SortedMap Path Node := SortedMap.empty
  /-- The top-level declarations, in source order. -/
  roots : List Path := []
  edges : List Edge := []
deriving DecidableEq

/-- What is wrong with the fields of a node. -/
def Node.fieldErrors (n : Node) : List GraphError :=
  n.unknownFields.map (.unknownField n.path n.kind) ++
    if n.hasRequiredFields then [] else [.missingField n.path n.kind n.kind.requiredFields]

namespace ModuleGraph

/-- The graph of stored parts, unchecked; of two nodes with one path the later one counts. -/
def ofParts (module : Path) (version : Version) (nodes : List Node) (roots : List Path)
    (edges : List Edge) : ModuleGraph where
  module := module
  version := version
  nodes := SortedMap.ofList (nodes.map fun n => (n.path, n))
  roots := roots
  edges := edges

def node? (g : ModuleGraph) (path : Path) : Option Node := g.nodes.find? path

def contains (g : ModuleGraph) (path : Path) : Bool := g.nodes.contains path

/-- The first expansion that leaves `source`. -/
def expansionOf (g : ModuleGraph) (source : Path) : Option Edge :=
  g.edges.find? fun e => e.isExpansion && e.source.path == source

/-- Adds a node inside `parent`, or at top level. It has to lie in the module, carry its version, be
new, and be of a kind that may stand inside the parent. -/
def addNode (g : ModuleGraph) (node : Node) (parent : Option Path) :
    Except GraphError ModuleGraph := do
  if (node.path.strip? g.module).isNone then throw (.foreignNode node.path g.module)
  if node.version ≠ g.version then throw (.versionMismatch node.path g.version node.version)
  if g.contains node.path then throw (.duplicatePath node.path)
  match parent with
  | none =>
    return { g with
      roots := g.roots ++ [node.path]
      nodes := g.nodes.insert node.path node }
  | some path =>
    match g.node? path with
    | none => throw (.nodeNotFound path)
    | some outer =>
      if !outer.kind.mayContain node.kind then
        throw (.illegalNesting path outer.kind node.kind)
      let outer := { outer with children := outer.children ++ [node.path] }
      return { g with nodes := (g.nodes.insert path outer).insert node.path node }

/-- Adds an edge. Its source has to be a node of the module, and no two expansions leave one
node. -/
def addEdge (g : ModuleGraph) (edge : Edge) : Except GraphError ModuleGraph := do
  let source := edge.source.path
  if !g.contains source then throw (.danglingEdge edge.kind source source)
  if edge.isExpansion && (g.expansionOf source).isSome then throw (.multipleExpansion source)
  return { g with edges := g.edges ++ [edge] }

/-- The nodes around `path` that follow each other outwards without a gap. -/
def ancestorsFrom (g : ModuleGraph) : Nat → Path → List Node
  | 0, _ => []
  | fuel + 1, path =>
    match path.parent with
    | none => []
    | some outer =>
      match g.node? outer with
      | none => []
      | some node => node :: g.ancestorsFrom fuel outer

/-- The enclosing nodes, innermost first. -/
def ancestors (g : ModuleGraph) (path : Path) : List Node := g.ancestorsFrom path.length path

def parentOf (g : ModuleGraph) (path : Path) : Option Node := path.parent.bind g.node?

/-- The innermost deduction or sub-deduction around `path`. -/
def enclosingDeduction (g : ModuleGraph) (path : Path) : Option Node :=
  (g.ancestors path).find? fun n => n.kind.isDeductive

/-- The top-level declaration that `path` is or lies in. -/
def topLevelOf (g : ModuleGraph) (path : Path) : Option Node :=
  (path.strip? g.module).bind fun inner => g.node? (g.module.child inner.head)

/-- The node at `path` and those inside it, outer before inner, where they nest at most `depth`
deep. -/
def visit (g : ModuleGraph) : Nat → Path → Option (List Node)
  | depth, path =>
    match g.node? path with
    | none => some []
    | some node =>
      match depth with
      | 0 => none
      | depth + 1 => do
        let inner ← node.children.mapM (g.visit depth)
        return node :: inner.flatten

/-- All nodes in source order, outer before inner. There is no such list where a node stands inside
itself: that is, where the nodes nest deeper than there are nodes. -/
def walk (g : ModuleGraph) : Option (List Node) := do
  let trees ← g.roots.mapM (g.visit g.nodes.size)
  return trees.flatten

def nodeErrors (g : ModuleGraph) (n : Node) : List GraphError :=
  (if (n.path.strip? g.module).isNone then [.foreignNode n.path g.module] else []) ++
    (if n.version ≠ g.version then [.versionMismatch n.path g.version n.version] else []) ++
    (n.children.filter fun inner => !g.contains inner).map .nodeNotFound ++
    n.fieldErrors

/-- The nodes that the walk misses, unless it makes as many visits as there are nodes. -/
def unreachedErrors (g : ModuleGraph) (walk : List Node) : List GraphError :=
  if walk.length = g.nodes.size then []
  else
    let seen := walk.map Node.path
    (g.nodes.keys.filter fun path => !seen.contains path).map .nodeNotFound

/-- The ends of an edge that lie in the module without being one of its nodes. -/
def endpointErrors (g : ModuleGraph) (e : Edge) : List GraphError :=
  (e.endpoints.filter fun r =>
    r.path.startsWith g.module && r.version == g.version && !e.isGhost && !g.contains r.path).map
    fun r => .danglingEdge e.kind e.source.path r.path

def edgeErrors (g : ModuleGraph) : List Path → List Edge → List GraphError
  | _, [] => []
  | sources, e :: rest =>
    let source := e.source.path
    g.endpointErrors e ++
      (if e.isExpansion && sources.contains source then [.multipleExpansion source] else []) ++
      g.edgeErrors (if e.isExpansion then source :: sources else sources) rest

/-- All that is wrong with the structure of the graph; no answer where the walk has none. -/
def validate (g : ModuleGraph) : Option (List GraphError) := do
  let walk ← g.walk
  return g.nodes.values.flatMap g.nodeErrors ++ g.unreachedErrors walk ++ g.edgeErrors [] g.edges

end ModuleGraph

end Deductions
