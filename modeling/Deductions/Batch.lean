import Deductions.Resolution
import Deductions.Source.Reader

namespace Deductions

structure ModuleSource where
  path : Path
  version : Version
  text : String
deriving DecidableEq

def ModuleSource.id (s : ModuleSource) : ModuleId := ⟨s.path, s.version⟩

inductive CompileError where
  | syntactic (module : Path) (version : Version) (error : SyntaxError)
  | construction (error : ConstructionError)
  | resolution (module : Path) (errors : List ResolveError)
  | cyclicImport (module : Path) (cycle : List Path)
  | dependencyFailed (module dependency : Path)
deriving DecidableEq

def CompileError.message : CompileError → String
  | .syntactic module version error => s!"{module}@{version}: " ++ error.message
  | .construction error => error.message
  | .resolution module errors => s!"{errors.length} resolution error(s) in module {module}"
  | .cyclicImport module cycle =>
    s!"module {module} is part of an import cycle: " ++ " -> ".intercalate (cycle.map Path.text)
  | .dependencyFailed module dependency =>
    s!"module {module} imports {dependency}, which failed to compile"

/-- Reads a module and builds its candidate. -/
def ModuleSource.build (s : ModuleSource) : Except CompileError Candidate := do
  let source ← (Source.parse s.text).mapError (.syntactic s.path s.version)
  (Candidate.build s.path s.version source).mapError .construction

/-- Resolves a candidate, as part of its compilation. -/
def Candidate.compile (c : Candidate) (s : Surroundings) : Except CompileError ResolvedModule :=
  (c.resolve s).mapError (.resolution c.module)

/-- Compiles one module against what is there already. -/
def ModuleSource.compile (source : ModuleSource) (s : Surroundings) :
    Except CompileError ResolvedModule := do
  (← source.build).compile s

abbrev Outcome := Except CompileError ResolvedModule

def Outcome.isError : Outcome → Bool
  | .ok _ => false
  | .error _ => true

/-- What came of a batch. -/
structure BatchResult where
  /-- The outcome of every module. -/
  outcomes : SortedMap ModuleId Outcome
  /-- The modules that were resolved together, in order. -/
  layers : List (List ModuleId)
  /-- The library with every module that compiled. -/
  library : ModuleLibrary

namespace BatchResult

def succeeded (r : BatchResult) : Bool := r.outcomes.values.all fun o => !o.isError

def compiled (r : BatchResult) : List ResolvedModule :=
  r.outcomes.values.filterMap fun o => o.toOption

def failures (r : BatchResult) : List (ModuleId × CompileError) :=
  r.outcomes.entries.filterMap fun (id, outcome) =>
    match outcome with
    | .ok _ => none
    | .error e => some (id, e)

end BatchResult

namespace Batch

/-- The modules of a batch that a candidate refers to, by import or by absolute name. A module does
not depend on itself nor on those around it. -/
def dependencies (c : Candidate) (imports : ImportTable) (batch : List ModuleId) : List ModuleId :=
  let names := c.externalNames
  let given := imports.names.entries.filterMap fun (localName, target) =>
    if names.any fun n => n.head == localName then some target.path else none
  let names := names ++ given ++ imports.globs.map ImportTarget.path
  batch.filter fun id =>
    id.path != c.module && !c.module.startsWith id.path && names.any fun n => n.startsWith id.path

/-- The state of a batch between two layers. -/
structure Progress where
  pending : List ModuleId
  outcomes : SortedMap ModuleId Outcome
  layers : List (List ModuleId)
  library : ModuleLibrary

/-- Whether the module failed. -/
def failed (outcomes : SortedMap ModuleId Outcome) (id : ModuleId) : Bool :=
  ((outcomes.find? id).map Outcome.isError).getD false

/-- Gives up those of the ready modules that depend on a failed one, and returns the others. -/
def giveUp (dependencies : SortedMap ModuleId (List ModuleId)) :
    SortedMap ModuleId Outcome → List ModuleId → List ModuleId × SortedMap ModuleId Outcome
  | outcomes, [] => ([], outcomes)
  | outcomes, id :: rest =>
    match ((dependencies.find? id).getD []).find? (failed outcomes) with
    | some dependency =>
      giveUp dependencies
        (outcomes.insert id (.error (.dependencyFailed id.path dependency.path))) rest
    | none =>
      let (runnable, outcomes) := giveUp dependencies outcomes rest
      (id :: runnable, outcomes)

section

variable (candidates : SortedMap ModuleId Candidate)
  (dependencies : SortedMap ModuleId (List ModuleId)) (imports : ImportTable)
  (previous : Option Snapshot)

/-- The outcomes of modules that are resolved against the same library. -/
def resolveLayer (library : ModuleLibrary) (layer : List ModuleId) : List (ModuleId × Outcome) :=
  layer.filterMap fun id =>
    (candidates.find? id).map fun c => (id, c.compile ⟨library, imports, previous⟩)

/-- Compiles the modules all of whose dependencies are done, again and again until there are none.
Each round takes a module at least, which bounds the fuel. -/
def run : Nat → Progress → Progress
  | 0, p => p
  | fuel + 1, p =>
    let ready := p.pending.filter fun id =>
      ((dependencies.find? id).getD []).all p.outcomes.contains
    if ready.isEmpty then p
    else
      let pending := p.pending.filter fun id => !ready.contains id
      let (layer, outcomes) := giveUp dependencies p.outcomes ready
      let resolved := resolveLayer candidates imports previous p.library layer
      run fuel {
        pending := pending
        outcomes := resolved.foldl (fun m e => m.insert e.1 e.2) outcomes
        layers := if layer.isEmpty then p.layers else p.layers ++ [layer]
        library := (resolved.filterMap fun e => e.2.toOption).foldl
          (fun l m => l.insert m.graph) p.library }

end

/-- The error of a module that is still pending when no module is ready: it lies on a cycle, or
depends on one that does. -/
def stuckError (stuck : Relation ModuleId) (cycles : List (List ModuleId)) (id : ModuleId) :
    CompileError :=
  if stuck.onCycle id then
    match cycles.find? fun cycle => cycle.contains id with
    | some cycle => .cyclicImport id.path (cycle.map ModuleId.path)
    | none => .cyclicImport id.path [id.path]
  else
    match stuck.successors id with
    | dependency :: _ => .dependencyFailed id.path dependency.path
    | [] => .dependencyFailed id.path id.path

/-- The dependencies of the pending modules among themselves. -/
def stuckRelation (dependencies : SortedMap ModuleId (List ModuleId)) (pending : List ModuleId) :
    Relation ModuleId :=
  SortedMap.ofList (pending.map fun id =>
    (id, ((dependencies.find? id).getD []).filter pending.contains))

end Batch

open Batch in
/-- Compiles a batch of modules against a library. The failure of a module concerns only those that
depend on it. -/
def compileBatch (sources : List ModuleSource) (library : ModuleLibrary) (imports : ImportTable)
    (previous : Option Snapshot) : BatchResult :=
  let built := sources.map fun s => (s.id, s.build)
  let batch := SortedSet.toList (SortedSet.ofList (built.map Prod.fst))
  let candidates := SortedMap.ofList (built.filterMap fun (id, outcome) =>
    outcome.toOption.map fun c => (id, c))
  let refused := SortedMap.ofList (built.filterMap fun (id, outcome) =>
    match outcome with
    | .ok _ => none
    | .error e => some (id, Except.error e))
  let dependencies := candidates.mapValues fun c => dependencies c imports batch
  let p := run candidates dependencies imports previous candidates.size
    ⟨candidates.keys, refused, [], library⟩
  let stuck := stuckRelation dependencies p.pending
  let cycles := stuck.cycles
  { outcomes := p.pending.foldl (fun m id => m.insert id (.error (stuckError stuck cycles id)))
      p.outcomes
    layers := p.layers
    library := p.library }

/-- Collects compiled modules into a snapshot; the path that is taken twice where one is. -/
def assemble (library : String) (version : Version) (modules : List ResolvedModule) :
    Except Path Snapshot :=
  modules.foldlM (fun s m => s.addModule m.graph m.narrations (SortedSet.toList m.external))
    { library := library, version := version }

end Deductions
