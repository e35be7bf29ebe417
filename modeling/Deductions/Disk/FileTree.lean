import Deductions.Disk

namespace Deductions

/-- A file, or a directory with what its names stand for. -/
inductive FileNode where
  | file (bytes : List UInt8)
  | folder (entries : List (String × FileNode))
deriving Inhabited

namespace FileNode

/-- What the names in a directory stand for. -/
abbrev Entries := List (String × FileNode)

/-- The entries where a name stands for another node, or for its first one. -/
def setEntry (name : String) (node : FileNode) : Entries → Entries
  | [] => [(name, node)]
  | entry :: rest =>
    if entry.1 == name then (name, node) :: rest else entry :: setEntry name node rest

end FileNode

/-- A node of a tree, and the directories that it lies in, innermost first, each with the name that
leads from there to the node. -/
structure Location where
  node : FileNode
  above : List (String × FileNode.Entries) := []

namespace Location

/-- The root of the tree in which a node stands. -/
def rootOf (node : FileNode) : List (String × FileNode.Entries) → FileNode
  | [] => node
  | (name, entries) :: above => rootOf (.folder (FileNode.setEntry name node entries)) above

/-- The directory in which a node stands; the root stands in itself. -/
def outer (l : Location) : Location :=
  match l.above with
  | [] => l
  | (name, entries) :: above => ⟨.folder (FileNode.setEntry name l.node entries), above⟩

/-- What a name stands for in a directory. -/
def inner (l : Location) (name : String) : Except DiskError Location :=
  match l.node with
  | .file _ => .error .notDirectory
  | .folder entries =>
    match entries.lookup name with
    | some node => .ok ⟨node, (name, entries) :: l.above⟩
    | none => .error .notFound

/-- Whether a part of a path names something in a directory. -/
def isName (part : String) : Bool := !part.isEmpty && part != "." && part != ".."

/-- The entries of a directory in which a part of a path can stand. -/
def entriesFor (l : Location) (part : String) : Except DiskError FileNode.Entries :=
  match l.node with
  | .file _ => .error .notDirectory
  | .folder entries =>
    if part.utf8ByteSize > nameLimit then .error .nameTooLong else .ok entries

/-- Where a part of a path leads from a directory. -/
def follow (l : Location) (part : String) : Except DiskError Location := do
  let _ ← l.entriesFor part
  if isName part then l.inner part
  else return if part == ".." then l.outer else l

end Location

structure FileTree where
  root : FileNode := .folder [("", .folder [("", .folder [])])]

namespace FileTree

/-- The names that lead from the root to the directory in which commands run. They are empty, so
that no path can say them. -/
def way : List String := ["", ""]

/-- Where a path starts. -/
def start (t : FileTree) (path : String) : Except DiskError Location :=
  (if path.startsWith "/" then [] else way).foldlM Location.inner ⟨t.root, []⟩

/-- The parts of a path between its slashes. -/
def parts (path : String) : List String := path.splitToList (· == '/')

def checkPath (path : String) : Except DiskError Unit :=
  match pathError? path with
  | some e => .error e
  | none => .ok ()

/-- Where a path leads. -/
def locate (t : FileTree) (path : String) : Except DiskError Location := do
  checkPath path
  (parts path).foldlM Location.follow (← t.start path)

def read (t : FileTree) (path : String) : Except DiskError (List UInt8) := do
  match (← t.locate path).node with
  | .file bytes => return bytes
  | .folder _ => throw .isDirectory

/-- Puts a node where a path leads. The node may depend on the entries of the directory and on the
last part of the path, which is empty for the root. -/
def change (t : FileTree) (path : String)
    (put : FileNode.Entries → String → Except DiskError FileNode) : Except DiskError FileTree := do
  checkPath path
  let names := (parts path).filter fun part => !part.isEmpty
  let last := names.getLast?.getD ""
  let directory ← names.dropLast.foldlM Location.follow (← t.start path)
  let entries ← directory.entriesFor ""
  let node ← put entries last
  return ⟨Location.rootOf (.folder (FileNode.setEntry last node entries)) directory.above⟩

def write (t : FileTree) (path : String) (bytes : List UInt8) : Except DiskError FileTree :=
  t.change path fun entries name => do
    if !Location.isName name || path.endsWith "/" then throw .isDirectory
    if name.utf8ByteSize > nameLimit then throw .nameTooLong
    match entries.lookup name with
    | some (.folder _) => throw .isDirectory
    | _ => return .file bytes

def makeFolder (t : FileTree) (path : String) : Except DiskError FileTree :=
  t.change path fun entries name => do
    if !Location.isName name then throw .alreadyExists
    if name.utf8ByteSize > nameLimit then throw .nameTooLong
    if (entries.lookup name).isSome then throw .alreadyExists
    return .folder []

/-- Keeps the tree of a change that was made. -/
def update (result : FileTree → Except DiskError FileTree) :
    StateM FileTree (Except DiskError Unit) := fun t =>
  match result t with
  | .ok next => (.ok (), next)
  | .error e => (.error e, t)

instance : Disk (StateM FileTree) where
  readFile path := fun t => (t.read path, t)
  writeFile path bytes := update fun t => t.write path bytes
  makeDirectory path := update fun t => t.makeFolder path
  directories := fun t => ([""], t)

end FileTree

end Deductions
