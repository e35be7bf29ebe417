import Deductions.Batch
import Deductions.ChangeLog.Toml
import Deductions.Disk
import Deductions.Validation

namespace Deductions

/-- An import that is given to all modules, as written. -/
structure ImportSpec where
  path : String
  version : Option String := none
deriving DecidableEq

structure Manifest where
  library : String
  /-- The version, as written. -/
  version : String := "0.1.0"
  /-- The files of the modules. -/
  modules : SortedMap String String := SortedMap.empty
  /-- Imports by their local names; the name `*` stands for all top-level names. -/
  imports : SortedMap String ImportSpec := SortedMap.empty
  /-- The snapshot files of other libraries. -/
  dependencies : SortedMap String String := SortedMap.empty
  options : ValidationOptions := {}
  /-- The snapshot file of the previous version. -/
  previous : Option String := none
  /-- The file of the change log. -/
  changeLog : Option String := none
deriving DecidableEq

/-- A table as a map. -/
def Toml.map? {α : Type} (read : Toml → Option α) (t : Toml) : Option (SortedMap String α) := do
  let entries ← (← t.entries?).mapM fun (key, value) => do return (key, ← read value)
  return SortedMap.ofList entries

/-- The value of a member that need not be there. -/
def Toml.memberOr {α : Type} (default : α) (read : Toml → Option α) : Option Toml → Option α
  | some t => read t
  | none => some default

def ImportSpec.ofToml? (t : Toml) : Option ImportSpec :=
  match t with
  | .string path => some ⟨path, none⟩
  | t => do
    if ((t.elems?.map List.length).getD 0) > 2 then none
    match ← t.record? [⟨"path", true⟩, ⟨"version", false⟩] with
    | [some path, version] => return ⟨← path.string?, ← version.mapM Toml.string?⟩
    | _ => none

def ValidationOptions.ofToml? (t : Toml) : Option ValidationOptions := do
  match ← t.record? [⟨"require_major_bump", false⟩, ⟨"warn_unused_assertions", false⟩] with
  | [bump, unused] =>
    return ⟨← Toml.memberOr true Toml.bool? bump, ← Toml.memberOr true Toml.bool? unused⟩
  | _ => none

namespace Manifest

/-- The name and the version of a library. -/
def library? (t : Toml) : Option (String × String) := do
  match ← t.record? [⟨"name", true⟩, ⟨"version", false⟩] with
  | [some name, version] =>
    return (← name.string?, ← Toml.memberOr "0.1.0" Toml.string? version)
  | _ => none

/-- The files of the previous version and of the change log. -/
def history? (t : Toml) : Option (Option String × Option String) := do
  match ← t.record? [⟨"previous", false⟩, ⟨"changelog", false⟩] with
  | [previous, changeLog] => return (← previous.mapM Toml.string?, ← changeLog.mapM Toml.string?)
  | _ => none

def layout : List Toml.Member :=
  [⟨"library", true⟩, ⟨"modules", false⟩, ⟨"imports", false⟩, ⟨"dependencies", false⟩,
    ⟨"validation", false⟩, ⟨"history", false⟩]

def ofToml? (t : Toml) : Option Manifest := do
  match ← t.record? layout with
  | [some library, modules, imports, dependencies, options, history] =>
    let (name, version) ← library? library
    let (previous, changeLog) ← Toml.memberOr (none, none) history? history
    return {
      library := name
      version := version
      modules := ← Toml.memberOr SortedMap.empty (Toml.map? Toml.string?) modules
      imports := ← Toml.memberOr SortedMap.empty (Toml.map? ImportSpec.ofToml?) imports
      dependencies := ← Toml.memberOr SortedMap.empty (Toml.map? Toml.string?) dependencies
      options := ← Toml.memberOr {} ValidationOptions.ofToml? options
      previous := previous
      changeLog := changeLog }
  | _ => none

def parse (text : String) : Option Manifest := (Toml.parse text.toList).bind ofToml?

/-- The name that a manifest file has. -/
def fileName : String := "lemmata.toml"

/-- The snapshot file that is written unless another is asked for. -/
def defaultOutput (m : Manifest) (directory : String) : String :=
  joinPath (joinPath directory "target") s!"{m.library}-{m.version}.lms"

end Manifest

end Deductions
