import Deductions.Path
import Deductions.SortedMap
import Deductions.Version

namespace Deductions

/-- A path in another module, pinned to a version of that module or not. -/
structure ImportTarget where
  path : Path
  version : Option Version := none
deriving DecidableEq

/-- Local names with their targets, and the modules all of whose top-level names are imported, in
the order of their declaration. -/
structure ImportTable where
  names : SortedMap String ImportTarget := SortedMap.empty
  globs : List ImportTarget := []
deriving DecidableEq

namespace ImportTable

def insert (t : ImportTable) (localName : String) (target : ImportTarget) : ImportTable :=
  { t with names := t.names.insert localName target }

def get? (t : ImportTable) (localName : String) : Option ImportTarget := t.names.find? localName

/-- Adds a target to a list that has no other like it. -/
def addGlob (globs : List ImportTarget) (target : ImportTarget) : List ImportTarget :=
  if globs.contains target then globs else globs ++ [target]

def insertGlob (t : ImportTable) (target : ImportTarget) : ImportTable :=
  { t with globs := addGlob t.globs target }

def length (t : ImportTable) : Nat := t.names.size + t.globs.length

def isEmpty (t : ImportTable) : Bool := t.names.isEmpty && t.globs.isEmpty

/-- The version of the first pinned name, in the order of the names, whose path begins with `path`
or is a beginning of it. -/
def pinFor (t : ImportTable) (path : Path) : Option Version :=
  (t.names.values.find? fun o =>
    o.version.isSome && (path.startsWith o.path || o.path.startsWith path)).bind
    ImportTarget.version

/-- The target with the version that `t` pins it to, unless it has one of its own. -/
def pin (t : ImportTable) (target : ImportTarget) : ImportTarget :=
  match target.version with
  | some _ => target
  | none => { target with version := t.pinFor target.path }

/-- The table overlaid with `overrides`: their names take the place of equal names, and targets
without a version take one from their pins. -/
def mergedWith (t overrides : ImportTable) : ImportTable where
  names := (t.names.union overrides.names).mapValues overrides.pin
  globs := (overrides.globs.foldl addGlob t.globs).map overrides.pin

end ImportTable

end Deductions
