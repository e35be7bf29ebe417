namespace Deductions

inductive Json where
  | null
  /-- A string that is no text, an object with such a name, or a number that is infinite as a
  double. -/
  | unreadable
  | bool (b : Bool)
  | natural (n : Nat)
  | number (literal : String)
  | string (s : String)
  | array (elems : List Json)
  | object (members : List (String × Json))
deriving BEq, Inhabited

/-- Whether a member of a record has to be written. -/
inductive Presence where
  | required
  /-- A member that is not written in an object is null. -/
  | nullable
  | optional
deriving DecidableEq

namespace Json

/-- The value of the member `name`, which must not be repeated. -/
def member? (members : List (String × Json)) (name : String) : Option (Option Json) :=
  match members.filter fun m => m.1 == name with
  | [] => some none
  | [m] => some (some m.2)
  | _ => none

/-- What stands for an absent member of an object. -/
def absent? : Presence → Option (Option Json)
  | .required => none
  | .nullable => some (some .null)
  | .optional => some none

def objectFields (layout : List (String × Presence)) (members : List (String × Json)) :
    Option (List (Option Json)) :=
  layout.mapM fun (name, presence) => do
    match ← member? members name with
    | some value => some (some value)
    | none => absent? presence

def arrayFields : List (String × Presence) → List Json → Option (List (Option Json))
  | [], [] => some []
  | [], _ :: _ => none
  | (_, .optional) :: layout, [] => (none :: ·) <$> arrayFields layout []
  | _ :: _, [] => none
  | _ :: layout, value :: values => (some value :: ·) <$> arrayFields layout values

/-- The members of a record in the order of `layout`. A record is an object, whose members may stand
in any order among others, or the array of its members. -/
def record? (layout : List (String × Presence)) : Json → Option (List (Option Json))
  | .object members => objectFields layout members
  | .array elems => arrayFields layout elems
  | _ => none

def bool? : Json → Option Bool
  | .bool b => some b
  | _ => none

def string? : Json → Option String
  | .string s => some s
  | _ => none

/-- A natural number below `2 ^ 64`. -/
def index? : Json → Option Nat
  | .natural n => if n < UInt64.size then some n else none
  | _ => none

/-- A natural number below `2 ^ 32`. -/
def shortIndex? : Json → Option Nat
  | .natural n => if n < UInt32.size then some n else none
  | _ => none

def list? {α : Type} (read : Json → Option α) : Json → Option (List α)
  | .array elems => elems.mapM read
  | _ => none

/-- `none` for null. -/
def nullable? {α : Type} (read : Json → Option α) : Json → Option (Option α)
  | .null => some none
  | value => some <$> read value

/-- A case without arguments: its name, or the name with null as the only member of an object. -/
def caseName? : Json → Option String
  | .string name => some name
  | .object [(name, .null)] => some name
  | _ => none

/-- The same where an empty object may stand for the null. -/
def looseCaseName? : Json → Option String
  | .object [(name, .object [])] => some name
  | value => value.caseName?

mutual

/-- How deep a value nests. -/
def depth : Json → Nat
  | .array elems => depthList elems + 1
  | .object members => depthMembers members + 1
  | _ => 0

def depthList : List Json → Nat
  | [] => 0
  | value :: rest => max value.depth (depthList rest)

def depthMembers : List (String × Json) → Nat
  | [] => 0
  | (_, value) :: rest => max value.depth (depthMembers rest)

end

mutual

/-- Whether everything in a value can be read. -/
def isReadable : Json → Bool
  | .unreadable => false
  | .array elems => isReadableList elems
  | .object members => isReadableMembers members
  | _ => true

def isReadableList : List Json → Bool
  | [] => true
  | value :: rest => value.isReadable && isReadableList rest

def isReadableMembers : List (String × Json) → Bool
  | [] => true
  | (_, value) :: rest => value.isReadable && isReadableMembers rest

end

/-- Whether a value can be kept as a whole before its parts are read: all of it is readable, and it
nests at most `limit` deep. -/
def isKept (limit : Nat) (value : Json) : Bool := value.isReadable && value.depth ≤ limit

def ofOption {α : Type} (write : α → Json) : Option α → Json
  | none => .null
  | some value => write value

end Json

end Deductions
