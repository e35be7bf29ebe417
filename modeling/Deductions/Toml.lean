namespace Deductions

/-- How a table came about. -/
inductive TableForm where
  /-- Between braces. -/
  | inline
  /-- By a header of its own. -/
  | headed
  /-- By the header of a table inside it. -/
  | implied
  /-- By a dotted key. -/
  | dotted
deriving DecidableEq

inductive Toml where
  | string (s : String)
  | integer (n : Int)
  | float (literal : String)
  | bool (b : Bool)
  /-- A date, a time, or both, in the one text that each has. -/
  | dateTime (text : String)
  | array (elems : List Toml)
  | table (form : TableForm) (entries : List (String × Toml))
  /-- The tables under double-bracketed headers of one name. -/
  | tables (elems : List (List (String × Toml)))
deriving Inhabited

namespace Toml

/-- The entries of a table. No two have one key. -/
abbrev Entries := List (String × Toml)

/-- The entries with another value at a key that is there. -/
def setEntry (key : String) (value : Toml) (entries : Entries) : Entries :=
  entries.map fun e => if e.1 == key then (key, value) else e

def addEntry (key : String) (value : Toml) (entries : Entries) : Option Entries :=
  if (entries.lookup key).isSome then none else some (entries ++ [(key, value)])

/-- Changes the table at the end of a path, and makes those on the way that are missing. An array of
tables stands for its last one. No path leads into an inline table, and no dotted key into a table
that has a header. -/
def modify (dotted : Bool) (change : TableForm → Entries → Option Entries) :
    List String → TableForm → Entries → Option Entries
  | [], form, entries => change form entries
  | key :: path, _, entries =>
    match entries.lookup key with
    | none => do
      let form := if dotted then .dotted else .implied
      return entries ++ [(key, .table form (← modify dotted change path form []))]
    | some (.table form inner) =>
      if form = .inline || (dotted && form = .headed) then none
      else do return setEntry key (.table form (← modify dotted change path form inner)) entries
    | some (.tables elems) =>
      match elems.getLast? with
      | none => none
      | some last => do
        let last ← modify dotted change path .headed last
        return setEntry key (.tables (elems.dropLast ++ [last])) entries
    | some _ => none

/-- Binds a key, dotted by `path`, in a table. A dotted key extends only what dotted keys made. -/
def assign (path : List String) (key : String) (value : Toml) :
    TableForm → Entries → Option Entries :=
  modify true (fun form entries =>
    if (form == .dotted) == path.isEmpty then none else addEntry key value entries) path

/-- Opens a table by its header, which may come after those of the tables inside it. -/
def openTable (key : String) (_ : TableForm) (entries : Entries) : Option Entries :=
  match entries.lookup key with
  | none => some (entries ++ [(key, .table .headed [])])
  | some (.table .implied inner) => some (setEntry key (.table .headed inner) entries)
  | some _ => none

/-- Opens another table of an array of tables. -/
def openElement (key : String) (_ : TableForm) (entries : Entries) : Option Entries :=
  match entries.lookup key with
  | none => some (entries ++ [(key, .tables [[]])])
  | some (.tables elems) => some (setEntry key (.tables (elems ++ [[]])) entries)
  | some _ => none

/-- The table of keys between braces. -/
def inline? (keys : List ((List String × String) × Toml)) : Option Toml := do
  let entries ← keys.foldlM (fun entries ((path, key), value) =>
    assign path key value .inline entries) []
  return .table .inline entries

def string? : Toml → Option String
  | .string s => some s
  | _ => none

def bool? : Toml → Option Bool
  | .bool b => some b
  | _ => none

/-- The elements of an array, of whichever form. -/
def elems? : Toml → Option (List Toml)
  | .array elems => some elems
  | .tables elems => some (elems.map (.table .headed))
  | _ => none

def list? {α : Type} (read : Toml → Option α) (t : Toml) : Option (List α) := do
  (← t.elems?).mapM read

/-- The key under which a date-time stands in the table that it is read as. -/
def dateTimeKey : String := "$__toml_private_datetime"

/-- The entries of a table. A date-time is the table of its text. -/
def entries? : Toml → Option Entries
  | .table _ entries => some entries
  | .dateTime text => some [(dateTimeKey, .string text)]
  | _ => none

/-- A member of a record, and whether it has to be there. -/
structure Member where
  name : String
  required : Bool

def tableMembers (layout : List Member) (entries : Entries) : Option (List (Option Toml)) :=
  layout.mapM fun m =>
    match entries.lookup m.name with
    | some value => some (some value)
    | none => if m.required then none else some none

def arrayMembers : List Member → List Toml → Option (List (Option Toml))
  | [], _ => some []
  | _ :: layout, value :: values => (some value :: ·) <$> arrayMembers layout values
  | m :: layout, [] => if m.required then none else (none :: ·) <$> arrayMembers layout []

/-- The members of a record in the order of `layout`: from a table, or from an array in this order.
Other members do not count. -/
def record? (layout : List Member) (t : Toml) : Option (List (Option Toml)) :=
  match t.entries? with
  | some entries => tableMembers layout entries
  | none => t.elems?.bind (arrayMembers layout)

end Toml

end Deductions
