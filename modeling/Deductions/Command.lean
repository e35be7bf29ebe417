import Deductions.Manifest
import Deductions.Report.Json
import Deductions.Snapshot.File
import Deductions.Source.Printer

namespace Deductions

inductive Command where
  | check (file module : String) (version : Option String) (libraries : List String)
  | format (file : String) (inPlace checkOnly : Bool)
  | build (manifest out : Option String)
  | validate (manifest report : Option String)
deriving DecidableEq

/-- Why a snapshot cannot be loaded or saved. -/
inductive StorageError where
  | disk (error : DiskError)
  | file (error : FileError)
deriving DecidableEq

/-- A file error tells its cause and is followed by it once more. -/
def StorageError.message : StorageError → String
  | .disk error => s!"I/O error: {error.message}: {error.message}"
  | .file error => error.message

/-- Why a command failed. -/
inductive CommandError where
  | reading (file : String) (error : DiskError)
  | writing (file : String) (error : DiskError)
  | creating (directory : String) (error : DiskError)
  | parsing (file : String) (error : SyntaxError)
  | notFormatted (file : String)
  | modulePath (text : String) (error : PathError)
  | moduleVersion (text : String) (error : VersionError)
  | loading (file : String) (error : StorageError)
  | checkFailed (file : String)
  | checkErrors (file : String) (errors : Nat)
  | noManifest
  | malformedManifest (file : String)
  | libraryVersion (library : String) (error : VersionError)
  | moduleEntry (module : String) (error : PathError)
  | importPath (localName : String) (error : PathError)
  | importVersion (localName : String) (error : VersionError)
  | noModules
  | loadingDependency (name file : String) (error : StorageError)
  | loadingPrevious (file : String) (error : StorageError)
  | readingLog (file : String) (error : DiskError)
  | loadingLog (file : String) (error : ChangeLogError)
  | compilation (failed modules : Nat)
  | assemblingModule (path : Path)
  | assemblingLibrary (path : Path)
  | saving (file : String) (error : StorageError)
  | unknownFormat (name : String)
  | validationFailed (errors : Nat) (library : String) (version : Version)
deriving DecidableEq

def duplicatePathMessage (path : Path) : String :=
  s!"path {path} is already present in the snapshot"

def CommandError.message : CommandError → String
  | .reading file error => s!"reading {file}: {error.message}"
  | .writing file error => s!"writing {file}: {error.message}"
  | .creating directory error => s!"creating {directory}: {error.message}"
  | .parsing file error => s!"parsing {file}: {error.message}"
  | .notFormatted file => s!"{file} is not formatted"
  | .modulePath text error => s!"module path '{text}': {error.message}"
  | .moduleVersion text error => s!"version '{text}': {error.message}"
  | .loading file error => s!"loading {file}: {error.message}"
  | .checkFailed file => s!"{file} failed to check"
  | .checkErrors file errors => s!"{file} has {errors} error(s)"
  | .noManifest => s!"no {Manifest.fileName} found"
  | .malformedManifest file => s!"parsing {file}: <toml>"
  | .libraryVersion library error => s!"[library] version of {library}: {error.message}"
  | .moduleEntry module error => s!"[modules] entry '{module}': {error.message}"
  | .importPath localName error => s!"[imports] entry '{localName}': {error.message}"
  | .importVersion localName error => s!"[imports] entry '{localName}': {error.message}"
  | .noModules => s!"no modules listed under [modules] in {Manifest.fileName}"
  | .loadingDependency name file error =>
    s!"loading dependency '{name}' from {file}: {error.message}"
  | .loadingPrevious file error => s!"loading previous snapshot {file}: {error.message}"
  | .readingLog file error =>
    s!"loading {file}: failed to read change log {file}: {error.message}: {error.message}"
  | .loadingLog file error => s!"loading {file}: {error.message}"
  | .compilation failed modules => s!"{failed} of {modules} module(s) failed to compile"
  | .assemblingModule path => s!"assembling module snapshot: {duplicatePathMessage path}"
  | .assemblingLibrary path => s!"assembling library snapshot: {duplicatePathMessage path}"
  | .saving file error => s!"writing {file}: {error.message}"
  | .unknownFormat name => s!"unknown report format: '{name}'. Choose: human, json"
  | .validationFailed errors library version =>
    s!"validation failed: {errors} error(s) block publication of {library} {version}"

/-- What a command has printed. -/
structure Transcript where
  output : String := ""
  complaints : String := ""
deriving DecidableEq

/-- A command in progress. -/
abbrev Run (m : Type → Type) := ExceptT CommandError (StateT Transcript m)

namespace Run

variable {m : Type → Type} [Monad m]

def print (text : String) : Run m Unit :=
  modify fun t => { t with output := t.output ++ text }

def complain (line : String) : Run m Unit :=
  modify fun t => { t with complaints := t.complaints ++ line ++ "\n" }

/-- Goes on with the answer of the disk. -/
def disk {α : Type} (wrap : DiskError → CommandError) (action : m (Except DiskError α)) :
    Run m α := do
  match ← (action : m _) with
  | .ok value => return value
  | .error e => throw (wrap e)

/-- Goes on with a result. -/
def take {ε α : Type} (wrap : ε → CommandError) (result : Except ε α) : Run m α :=
  match result with
  | .ok value => return value
  | .error e => throw (wrap e)

variable [Disk m]

def readText (wrap : DiskError → CommandError) (file : String) : Run m String := do
  take wrap (decodeText (← disk wrap (Disk.readFile file)))

def loadSnapshot (wrap : StorageError → CommandError) (file : String) : Run m Snapshot := do
  let bytes ← disk (wrap ∘ .disk) (Disk.readFile file)
  return (← take (wrap ∘ .file) (SnapshotFile.ofBytes bytes)).snapshot

/-- Reports a module that did not compile, with a line for each name that leads nowhere. -/
def complainAbout (error : CompileError) : Run m Unit := do
  complain s!"error: {error.message}"
  match error with
  | .resolution _ errors => errors.forM fun e => complain s!"  {e.message}"
  | _ => return ()

def check (file module : String) (version : Option String) (libraries : List String) :
    Run m Unit := do
  let text ← readText (.reading file) file
  let path ← take (.modulePath module) (Path.parse module)
  let version ← match version with
    | some tag => take (.moduleVersion tag) (Version.parse tag)
    | none => pure (.plain 0 1 0)
  let snapshots ← libraries.mapM fun file => loadSnapshot (.loading file) file
  let library := snapshots.foldl ModuleLibrary.addSnapshot {}
  match (ModuleSource.mk path version text).compile { library := library } with
  | .error e =>
    complainAbout e
    throw (.checkFailed file)
  | .ok resolved =>
    let snapshot ← take .assemblingModule (assemble module version [resolved])
    let report := Deductions.validate snapshot none {} {}
    (SortedSet.toList report.diagnostics).forM fun d => print (d.text ++ "\n")
    if !report.passed then throw (.checkErrors file report.errors.length)
    print (s!"ok: {module}@{version}: {snapshot.nodes.size} nodes, " ++
      s!"{snapshot.edges.length} edges, {report.warnings.length} warning(s)\n")

/-- Prints a file as it should be written, or writes it so, or checks that it is. -/
def format (file : String) (inPlace checkOnly : Bool) : Run m Unit := do
  let text ← readText (.reading file) file
  let source ← take (.parsing file) (Source.parse text)
  let formatted := source.text
  if checkOnly then
    if formatted != text then throw (.notFormatted file)
  else if inPlace then
    if formatted != text then
      disk (.writing file) (Disk.writeFile file (encodeText formatted))
  else print formatted

/-- A manifest and the directory from which it names files. -/
structure Project where
  manifest : Manifest
  directory : String

def loadManifest (file directory : String) : Run m Project := do
  let text ← readText (.reading file) file
  match Manifest.parse text with
  | some manifest => return ⟨manifest, directory⟩
  | none => throw (.malformedManifest file)

/-- The path of the manifest in a directory. -/
def manifestIn (directory : String) : String :=
  if directory.isEmpty then "./" ++ Manifest.fileName
  else joinPath directory Manifest.fileName

/-- The first of the directories that holds a manifest. -/
def findManifest : List String → Run m Project
  | [] => throw .noManifest
  | directory :: rest => do
    if ← (Disk.isFile (manifestIn directory) : m Bool) then
      loadManifest (manifestIn directory) directory
    else findManifest rest

def project (manifest : Option String) : Run m Project := do
  match manifest with
  | some file => loadManifest file ((parentPath? file).getD ".")
  | none => findManifest (← (Disk.directories : m (List String)))

def version (p : Project) : Run m Version :=
  take (.libraryVersion p.manifest.library) (Version.parse p.manifest.version)

def sources (p : Project) : Run m (List ModuleSource) := do
  let version ← version p
  p.manifest.modules.entries.mapM fun (module, file) => do
    let path ← take (.moduleEntry module) (Path.parse module)
    let file := joinPath p.directory file
    return ⟨path, version, ← readText (.reading file) file⟩

/-- The imports that the manifest gives to all modules. -/
def imports (p : Project) : Run m ImportTable :=
  p.manifest.imports.entries.foldlM (fun table (localName, spec) => do
    let path ← take (.importPath localName) (Path.parse spec.path)
    let version ← spec.version.mapM fun tag =>
      take (.importVersion localName) (Version.parse tag)
    let target := ⟨path, version⟩
    return if localName = "*" then table.insertGlob target else table.insert localName target) {}

def dependencies (p : Project) : Run m ModuleLibrary :=
  p.manifest.dependencies.entries.foldlM (fun library (name, file) => do
    let file := joinPath p.directory file
    return library.addSnapshot (← loadSnapshot (.loadingDependency name file) file)) {}

def previous (p : Project) : Run m (Option Snapshot) :=
  p.manifest.previous.mapM fun file =>
    let file := joinPath p.directory file
    loadSnapshot (.loadingPrevious file) file

def changeLog (p : Project) : Run m ChangeLog := do
  match p.manifest.changeLog with
  | none => return {}
  | some file =>
    let file := joinPath p.directory file
    let text ← readText (.readingLog file) file
    take (.loadingLog file) (ChangeLog.parse text)

/-- Compiles all modules of a library. -/
def compile (p : Project) (previous : Option Snapshot) : Run m Snapshot := do
  let sources ← sources p
  if sources.isEmpty then throw .noModules
  let imports ← imports p
  let library ← dependencies p
  let result := compileBatch sources library imports previous
  if !result.succeeded then
    result.failures.forM fun e => complainAbout e.2
    throw (.compilation result.failures.length sources.length)
  take .assemblingLibrary (assemble p.manifest.library (← version p) result.compiled)

/-- Compiles a library and writes its snapshot. -/
def build (p : Project) (out : Option String) : Run m Unit := do
  let previous ← previous p
  let snapshot ← compile p previous
  let out := out.getD (p.manifest.defaultOutput p.directory)
  if let some directory := parentPath? out then
    disk (.creating directory) (Disk.makeDirectories directory)
  disk (fun e => .saving out (.disk e))
    (Disk.writeFile out (SnapshotFile.ofSnapshot snapshot).bytes)
  print (s!"Built {p.manifest.library} {p.manifest.version}: {snapshot.nodes.size} nodes, " ++
    s!"{snapshot.edges.length} edges -> {out}\n")

def printReport (report : Report) (form : Option String) : Run m Unit :=
  match form with
  | some "json" => print (report.json.prettyText ++ "\n")
  | some "human" | none => print report.text
  | some other => throw (.unknownFormat other)

/-- Compiles a library and validates it against its previous version and change log. -/
def validate (p : Project) (form : Option String) : Run m Unit := do
  let previous ← previous p
  let log ← changeLog p
  let current ← compile p previous
  let report := Deductions.validate current previous log p.manifest.options
  printReport report form
  if !report.passed then
    throw (.validationFailed report.errors.length report.library report.version)

end Run

namespace Command

variable {m : Type → Type} [Monad m] [Disk m]

def run : Command → Run m Unit
  | .check file module version libraries => Run.check file module version libraries
  | .format file inPlace checkOnly => Run.format file inPlace checkOnly
  | .build manifest out => do Run.build (← Run.project manifest) out
  | .validate manifest report => do Run.validate (← Run.project manifest) report

/-- What a command prints, and why it fails if it does. -/
def execute (c : Command) : m (Except CommandError Unit × Transcript) := StateT.run c.run {}

end Command

end Deductions
