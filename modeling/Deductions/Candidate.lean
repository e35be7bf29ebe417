import Deductions.Graph
import Deductions.Import
import Deductions.Narration.Reader
import Deductions.Source

namespace Deductions

/-- The clauses that name other nodes. -/
inductive Clause where
  | of
  | on
  | versus
  | contra
deriving DecidableEq

def Clause.word : Clause → String
  | .of => "of"
  | .on => "on"
  | .versus => "versus"
  | .contra => "contra"

/-- The part that a reference of the clause plays once its node is lost. -/
def Clause.ghostRole : Clause → GhostRole
  | .of => .expansion
  | .on => .note
  | .versus => .alternativeCase
  | .contra => .contradiction

/-- A name in a clause of the node `source`, looked up from `scope` outwards. -/
structure Reference where
  clause : Clause
  source : Path
  scope : Path
  name : Path
  span : Span
deriving DecidableEq

inductive BuildError where
  | graph (error : GraphError)
  | narration (error : NarrationError)
  | selfReference (node : Path) (clause : Clause)
  | duplicateTarget (node : Path) (clause : Clause) (target : Path)
  | bodyNotRaw (node : Path)
  | invalidImport (module : Path) (name : String)
deriving DecidableEq

def BuildError.message : BuildError → String
  | .graph error => error.message
  | .narration error => error.message
  | .selfReference node clause => s!"'{clause.word}' clause of {node} names the node itself"
  | .duplicateTarget node clause target =>
    s!"{node} lists '{target}' more than once in its '{clause.word}' clause"
  | .bodyNotRaw node => s!"field 'body' of {node} must be a '@@@' raw block"
  | .invalidImport module name =>
    s!"relative import '{name}' in {module} climbs above the library root"

/-- All that is wrong with a module by itself. -/
structure ConstructionError where
  module : Path
  errors : List BuildError
deriving DecidableEq

def ConstructionError.message (e : ConstructionError) : String :=
  s!"{e.errors.length} construction error(s) in module {e.module}" ++
    String.join (e.errors.map fun error => "\n  " ++ error.message)

structure Candidate where
  /-- The nodes of the module; there are no edges yet. -/
  graph : ModuleGraph
  /-- The imports that the source declares. -/
  imports : ImportTable
  references : List Reference
deriving DecidableEq

namespace Candidate

def module (c : Candidate) : Path := c.graph.module

def version (c : Candidate) : Version := c.graph.version

/-- The names in the narration of a node. -/
def narrationNames (n : Node) : List Path :=
  (n.narration.getD []).flatMap fun step =>
    step.names.filterMap fun name => (Path.parse name).toOption

/-- All names that other modules may have to answer for, as written. -/
def externalNames (c : Candidate) : List Path :=
  c.imports.names.values.map ImportTarget.path ++ c.imports.globs.map ImportTarget.path ++
    c.references.map Reference.name ++ c.graph.nodes.values.flatMap narrationNames

end Candidate

/-- The module that an import means in `module`; none where its dots lead out of the library. -/
def ModuleName.resolve? (module : Path) (name : ModuleName) : Option Path :=
  if name.dots = 0 then Path.ofSegments? name.segments
  else if module.length < name.dots then none
  else do
    let package ← module.take? (module.length - name.dots)
    match Path.ofSegments? name.segments with
    | some rest => some (package.join rest)
    | none => some package

/-- Binds what an import of the module `base` imports. -/
def Import.bind (i : Import) (base : Path) (table : ImportTable) : ImportTable :=
  match i.form with
  | .whole newName => table.insert (newName.getD base.name) { path := base }
  | .everything => table.insertGlob { path := base }
  | .names list =>
    list.foldl (fun table n => table.insert n.localName { path := base.child n.name }) table

/-- The import table of a module and the imports that are wrong. -/
def buildImports (module : Path) (imports : List Import) : ImportTable × List BuildError :=
  imports.foldl (fun (table, errors) i =>
    match i.module.resolve? module with
    | none => (table, errors ++ [.invalidImport module i.module.text])
    | some base => (i.bind base table, errors)) ({}, [])

/-- The references of one clause, and the names that it should not have. -/
def buildClause (clause : Clause) (source scope : Path) (span : Span) :
    List Path → List Path → List Reference × List BuildError
  | _, [] => ([], [])
  | seen, name :: rest =>
    let (references, errors) := buildClause clause source scope span (name :: seen) rest
    if seen.contains name then (references, .duplicateTarget source clause name :: errors)
    else if scope.join name = source then (references, .selfReference source clause :: errors)
    else (⟨clause, source, scope, name, span⟩ :: references, errors)

/-- A module while it is being built. -/
structure Draft where
  graph : ModuleGraph
  references : List Reference := []
  errors : List BuildError := []

namespace Draft

def report (d : Draft) (errors : List BuildError) : Draft := { d with errors := d.errors ++ errors }

/-- The node of a block without its narration. -/
def plainNode (version : Version) (header : Header) (path : Path) (fields : List Field) : Node where
  path := path
  version := version
  kind := header.kind
  fields := SortedMap.ofList (fields.map fun f => (f.name, f.value.text))
  wolog := header.clauses.wolog

/-- The body of an annotation has to be raw. -/
def bodyErrors (kind : NodeKind) (path : Path) (fields : List Field) : List BuildError :=
  match fields.find? fun f => f.name == "body" with
  | some body => if kind = .note && !body.value.isRaw then [.bodyNotRaw path] else []
  | none => []

/-- The node with its narration, where it has one that can be read. -/
def narrate (n : Node) : Node × List BuildError :=
  if n.kind.isDeductive then
    match n.field? "narration" with
    | none => (n, [])
    | some text =>
      match parseNarration n.path text with
      | .ok steps => ({ n with narration := some steps }, [])
      | .error e => (n, [.narration e])
  else (n, [])

def clause (d : Draft) (clause : Clause) (source scope : Path) (header : Header)
    (names : List Path) : Draft :=
  let (references, errors) := buildClause clause source scope header.span [] names
  { d with references := d.references ++ references, errors := d.errors ++ errors }

/-- Everything about a block except its place in the graph: its node, and the draft with its
references and errors. -/
def describe (d : Draft) (header : Header) (fields : List Field) (scope : Path) : Node × Draft :=
  let path := scope.child header.name
  let (node, errors) := narrate (plainNode d.graph.version header path fields)
  let d := d.report (bodyErrors header.kind path fields ++ errors ++ node.fieldErrors.map .graph)
  let d := d.clause .of path d.graph.module header header.clauses.of
  let d := d.clause .on path d.graph.module header header.clauses.on
  let d := d.clause .versus path scope header header.clauses.versus
  (node, d.clause .contra path scope header header.clauses.contra)

mutual

/-- Adds an item of the block at `parent`, or of the module. What is inside a block that cannot be
added is not looked at. -/
def addItem (parent : Option Path) (d : Draft) : Item → Draft
  | .field _ => d
  | .block header items =>
    let scope := parent.getD d.graph.module
    let (node, d) := d.describe header (items.filterMap Item.field?) scope
    match d.graph.addNode node parent with
    | .error e => d.report [.graph e]
    | .ok graph => addItems (some node.path) { d with graph := graph } items

def addItems (parent : Option Path) (d : Draft) : List Item → Draft
  | [] => d
  | item :: rest => addItems parent (addItem parent d item) rest

end

end Draft

/-- Builds the candidate of a module, or lists all that is wrong with it. -/
def Candidate.build (module : Path) (version : Version) (source : Source) :
    Except ConstructionError Candidate :=
  let (imports, importErrors) := buildImports module source.imports
  let draft : Draft := { graph := { module := module, version := version }, errors := importErrors }
  let draft := Draft.addItems none draft (source.blocks.map fun b => .block b.header b.items)
  if draft.errors.isEmpty then .ok ⟨draft.graph, imports, draft.references⟩
  else .error ⟨module, draft.errors⟩

end Deductions
