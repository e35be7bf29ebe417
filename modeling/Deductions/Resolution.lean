import Deductions.Candidate
import Deductions.Cycle
import Deductions.Library

namespace Deductions

inductive ResolveError where
  | unresolved (node name : Path)
  | wrongTarget (node : Path) (clause : Clause) (target : Path) (expected : String)
      (found : NodeKind)
  | targetsSpanDeductions (node : Path) (targets : List Path)
  /-- A step supposes a node that cannot be supposed, or concludes one that can only be posited. -/
  | modalMismatch (node : Path) (step : Nat) (target : Path) (kind : NodeKind)
  | concludesSubDeduction (node : Path) (step : Nat) (target : Path)
  | duplicateExpansion (target first second : Path)
  | cyclicCaseChain (cycle : List Path)
  | graph (error : GraphError)
deriving DecidableEq

namespace ResolveError

def modalMessage (target : Path) (kind : NodeKind) : String :=
  if kind.isModal then s!"{kind} {target} is posited, it cannot be concluded"
  else s!"only suppositions and introductions can be supposed, {target} is a {kind}"

def message : ResolveError → String
  | .unresolved node name => s!"unresolved reference '{name}' in {node}"
  | .wrongTarget node clause target expected found =>
    s!"'{clause.word}' target {target} of {node} is a {found}, expected {expected}"
  | .targetsSpanDeductions node targets =>
    s!"targets of {node} belong to different deductions: " ++
      ", ".intercalate (targets.map Path.text)
  | .modalMismatch node step target kind =>
    s!"narration of {node}, step {step}: " ++ modalMessage target kind
  | .concludesSubDeduction node step target =>
    s!"narration of {node}, step {step}: sub-deduction {target} cannot be concluded"
  | .duplicateExpansion target first second => s!"{target} is expanded by both {first} and {second}"
  | .cyclicCaseChain cycle => "cyclic 'versus' chain: " ++ " -> ".intercalate (cycle.map Path.text)
  | .graph error => error.message

/-- The node that the error is about. -/
def node? : ResolveError → Option Path
  | .unresolved node _
  | .wrongTarget node ..
  | .targetsSpanDeductions node _
  | .modalMismatch node ..
  | .concludesSubDeduction node .. => some node
  | .duplicateExpansion _ _ second => some second
  | .cyclicCaseChain cycle => cycle.head?
  | .graph _ => none

end ResolveError

/-- What a module is resolved against. -/
structure Surroundings where
  library : ModuleLibrary := {}
  /-- Imports given from outside, which override those of the module. -/
  imports : ImportTable := {}
  /-- The previous version of the library. -/
  previous : Option Snapshot := none

structure ResolvedModule where
  graph : ModuleGraph
  narrations : SortedMap Path (List ResolvedStep)
  /-- The nodes of other modules that this one refers to. -/
  external : SortedSet NodeRef
  /-- The suppositions that are alternative cases of each other. -/
  caseGroups : List (List Path)
deriving DecidableEq

def ResolvedModule.ghostEdges (m : ResolvedModule) : List Edge := m.graph.edges.filter Edge.isGhost

/-- Where a name may be found: in the module itself only, or anywhere at a pinned version or not. -/
inductive Reach where
  | module
  | anywhere (pin : Option Version)

structure Place where
  path : Path
  reach : Reach

/-- What became of a name. -/
inductive Lookup where
  | found (node : Node)
  | ghost (target : NodeRef)
  | missing
deriving DecidableEq

def Lookup.node? : Lookup → Option Node
  | .found node => some node
  | _ => none

namespace Resolution

/-- The scopes from `scope` outwards to the module. -/
def scopesFrom (module : Path) : Nat → Path → List Path
  | 0, scope => [scope]
  | fuel + 1, scope =>
    if scope = module then [scope]
    else
      match scope.parent with
      | none => [scope]
      | some outer => scope :: scopesFrom module fuel outer

def scopes (module scope : Path) : List Path := scopesFrom module scope.length scope

/-- The path that a name means where its first segment stands for `target`. -/
def throughImport (target : ImportTarget) (name : Path) : Path :=
  match name.drop? 1 with
  | some rest => target.path.join rest
  | none => target.path

/-- The places where a name is looked up, in order. -/
def places (module : Path) (imports : ImportTable) (scope name : Path) : List Place :=
  (scopes module scope).map (fun outer => ⟨outer.join name, .module⟩) ++
    ((imports.get? name.head).map fun target =>
      ⟨throughImport target name, .anywhere target.version⟩).toList ++
    imports.globs.map (fun target => ⟨target.path.join name, .anywhere target.version⟩) ++
    [⟨name, .anywhere none⟩]

/-- The node at a path in the module itself or else in the library, where the module's own other
versions do not count. -/
def find? (graph : ModuleGraph) (library : ModuleLibrary) (path : Path) (pin : Option Version) :
    Option Node :=
  match graph.node? path with
  | some node => some node
  | none =>
    match library.owner path pin with
    | some g => if g.module = graph.module then none else g.node? path
    | none => none

def Place.node? (graph : ModuleGraph) (library : ModuleLibrary) (place : Place) : Option Node :=
  match place.reach with
  | .module => graph.node? place.path
  | .anywhere pin => find? graph library place.path pin

/-- Looks a name up. -/
def lookup (graph : ModuleGraph) (s : Surroundings) (imports : ImportTable) (scope name : Path) :
    Lookup :=
  let places := places graph.module imports scope name
  match places.findSome? (Place.node? graph s.library) with
  | some node => .found node
  | none =>
    match s.previous with
    | none => .missing
    | some previous =>
      match places.find? fun place => previous.contains place.path with
      | some place => .ghost ⟨place.path, previous.version⟩
      | none => .missing

/-- What has come of the nodes resolved so far. -/
structure Findings where
  errors : List ResolveError := []
  edges : List Edge := []
  external : SortedSet NodeRef := SortedMap.empty
  narrations : SortedMap Path (List ResolvedStep) := SortedMap.empty
  /-- The targets of expansions, with the deductions that claim them. -/
  claimed : SortedMap Path Path := SortedMap.empty
  /-- The alternative cases within the module. -/
  versus : Relation Path := SortedMap.empty

namespace Findings

def addErrors (f : Findings) (errors : List ResolveError) : Findings :=
  { f with errors := f.errors ++ errors }

def addEdges (f : Findings) (edges : List Edge) : Findings := { f with edges := f.edges ++ edges }

/-- Notes that `target` is an alternative case of `source`. -/
def addCase (f : Findings) (source target : Path) : Findings :=
  { f with versus := SortedMap.insert f.versus source (f.versus.successors source ++ [target]) }

/-- Notes what became of a name of `source`: a node of another module, a ghost, or a name that leads
nowhere. A ghost edge is made once, and a name reported once for each node. -/
def note (f : Findings) (graph : ModuleGraph) (source : Node) (name : Path) (role : GhostRole) :
    Lookup → Findings
  | .found node =>
    if graph.contains node.path then f
    else { f with external := SortedSet.insert f.external node.ref }
  | .ghost target =>
    let edge := .ghost source.ref target role
    if f.edges.contains edge then f else f.addEdges [edge]
  | .missing =>
    let error := .unresolved source.path name
    if f.errors.contains error then f else f.addErrors [error]

end Findings

section

variable (graph : ModuleGraph) (s : Surroundings) (imports : ImportTable)

/-- The names of a narration as paths with what became of them. -/
def lookups (owner : Node) (names : List String) : List (Path × Lookup) :=
  names.filterMap fun name =>
    (Path.parse name).toOption.map fun path => (path, lookup graph s imports owner.path path)

def noteLookups (owner : Node) (f : Findings) (found : List (Path × Lookup)) : Findings :=
  found.foldl (fun f (name, result) => f.note graph owner name .narration result) f

/-- What is wrong with a conclusion: only what is modal can be supposed, and what is modal can only
be supposed. -/
def conclusionErrors (owner : Node) (step : NarrationStep) (target : Node) : List ResolveError :=
  if target.kind = .subDeduction then [.concludesSubDeduction owner.path step.index target.path]
  else if (step.connective == .suppose) == target.kind.isModal then []
  else [.modalMismatch owner.path step.index target.path target.kind]

/-- The inferences of a step: from every antecedent in the module to every conclusion. -/
def inferences (owner : Node) (step : NarrationStep) (antecedents conclusions : List Node) :
    List Edge :=
  (antecedents.filter fun n => graph.contains n.path).flatMap fun a =>
    conclusions.map fun c => .inference a.ref c.ref owner.path step.index

def resolveStep (owner : Node) (f : Findings) (step : NarrationStep) : ResolvedStep × Findings :=
  let antecedentLookups := lookups graph s imports owner step.antecedents
  let conclusionLookups := lookups graph s imports owner step.conclusions
  let antecedents := firstBy Node.path (antecedentLookups.filterMap fun l => l.2.node?)
  let conclusions := firstBy Node.path (conclusionLookups.filterMap fun l => l.2.node?)
  let f := noteLookups graph owner f (antecedentLookups ++ conclusionLookups)
  let f := f.addErrors (conclusions.flatMap (conclusionErrors owner step))
  let f := f.addEdges (inferences graph owner step antecedents conclusions)
  (⟨step.index, step.connective, antecedents.map Node.ref, conclusions.map Node.ref⟩, f)

def resolveSteps (owner : Node) (f : Findings) :
    List NarrationStep → List ResolvedStep × Findings
  | [] => ([], f)
  | step :: rest =>
    let (resolved, f) := resolveStep graph s imports owner f step
    let (others, f) := resolveSteps owner f rest
    (resolved :: others, f)

/-- Resolves the narration of a node. -/
def resolveNarration (f : Findings) (owner : Node) : Option (List ResolvedStep) × Findings :=
  match owner.narration with
  | none => (none, f)
  | some steps =>
    let (resolved, f) := resolveSteps graph s imports owner f steps
    (some resolved, f)

/-- What is wrong with a target of an expansion of `declared` targets. -/
def targetErrors (node target : Node) (declared : Nat) : List ResolveError :=
  if declared > 1 then
    if target.kind = .assertion then []
    else [.wrongTarget node.path .of target.path "Assertion" target.kind]
  else if target.kind = .assertion || target.kind.isDeductive then []
  else [.wrongTarget node.path .of target.path "Assertion or Deduction" target.kind]

/-- Adds the edge of a clause that is about suppositions. -/
def linkSupposition (node target : Node) (clause : Clause) (edge : Edge) (f : Findings) :
    Findings :=
  if target.kind = .supposition then
    let f := f.addEdges [edge]
    if clause = .versus && graph.contains target.path then f.addCase node.path target.path else f
  else f.addErrors [.wrongTarget node.path clause target.path "Supposition" target.kind]

/-- What follows from a name in a clause of `node` that means `target`. -/
def linkReference (node : Node) (declared : Nat) (clause : Clause) (target : Node) (f : Findings) :
    Findings :=
  match clause with
  | .of => f.addErrors (targetErrors node target declared)
  | .on => f.addEdges [.annotates node.ref target.ref]
  | .versus =>
    linkSupposition graph node target .versus (.alternativeCase node.ref target.ref) f
  | .contra =>
    linkSupposition graph node target .contra (.contradiction node.ref target.ref) f

/-- Resolves the references of a node and returns the nodes that it expands. -/
def resolveReferences (node : Node) (declared : Nat) (f : Findings) :
    List Reference → List Node × Findings
  | [] => ([], f)
  | r :: rest =>
    let result := lookup graph s imports r.scope r.name
    let f := f.note graph node r.name r.clause.ghostRole result
    match result.node? with
    | none => resolveReferences node declared f rest
    | some target =>
      let f := linkReference graph node declared r.clause target f
      let (targets, f) := resolveReferences node declared f rest
      (if r.clause = .of then target :: targets else targets, f)

/-- The top-level declaration around a node, in the graph that owns it. -/
def topLevel (n : Node) : Option Path :=
  let owner := if graph.contains n.path then some graph else s.library.owner n.path (some n.version)
  (owner.bind fun g => g.topLevelOf n.path).map Node.path

def spanErrors (node : Node) (targets : List Node) : List ResolveError :=
  match firstOccurrences (targets.map (topLevel graph s)) with
  | [] | [_] => []
  | _ => [.targetsSpanDeductions node.path (targets.map Node.path)]

/-- Claims a target for `node`, unless another deduction proves it. -/
def claim (node : Node) (f : Findings) (target : Node) : Findings :=
  let earlier := match f.claimed.find? target.path with
    | some first => some first
    | none => s.library.expanderOf target.path graph.version graph.module
  match earlier with
  | some first => f.addErrors [.duplicateExpansion target.path first node.path]
  | none => { f with claimed := f.claimed.insert target.path node.path }

/-- Whether one of the steps concludes one of the targets. -/
def isNarrated (steps : List ResolvedStep) (targets : List Node) : Bool :=
  steps.any fun step => step.conclusions.any fun c => targets.any fun t => t.path == c.path

/-- Makes the expansion of a node with the given targets. -/
def expand (node : Node) (targets : List Node) (steps : List ResolvedStep) (f : Findings) :
    Findings :=
  if targets.isEmpty then f
  else
    let f := f.addErrors (spanErrors graph s node targets)
    let f := targets.foldl (claim graph s node) f
    let origin := if isNarrated steps targets then .narrated else .declared
    f.addEdges [.expansion node.ref (targets.map Node.ref) origin]

/-- Resolves everything that a node refers to: its narration, then its clauses. -/
def resolveNode (references : List Reference) (f : Findings) (node : Node) : Findings :=
  let own := references.filter fun r => r.source == node.path
  let declared := (own.filter fun r => r.clause == .of).length
  let (steps, f) := resolveNarration graph s imports f node
  let (targets, f) := resolveReferences graph s imports node declared f own
  let f := expand graph s node (firstBy Node.path targets) (steps.getD []) f
  match steps with
  | none => f
  | some steps => { f with narrations := f.narrations.insert node.path steps }

end

/-- The graph with the edges, and what is wrong with those it does not take. -/
def attach (graph : ModuleGraph) (edges : List Edge) : ModuleGraph × List ResolveError :=
  edges.foldl (fun (graph, errors) edge =>
    match graph.addEdge edge with
    | .ok graph => (graph, errors)
    | .error e => (graph, errors ++ [.graph e])) (graph, [])

/-- The findings of all nodes, in source order. -/
def findings (c : Candidate) (s : Surroundings) : Findings :=
  let imports := c.imports.mergedWith s.imports
  (c.graph.walk.getD []).foldl (resolveNode c.graph s imports c.references) {}

end Resolution

open Resolution in
/-- Resolves a candidate, or lists all that is wrong with it. -/
def Candidate.resolve (c : Candidate) (s : Surroundings) :
    Except (List ResolveError) ResolvedModule :=
  let f := findings c s
  let errors := f.errors ++ f.versus.cycles.map .cyclicCaseChain
  if !errors.isEmpty then .error errors
  else
    let (graph, errors) := attach c.graph f.edges
    if !errors.isEmpty then .error errors
    else .ok ⟨graph, f.narrations, f.external, f.versus.components⟩

end Deductions
