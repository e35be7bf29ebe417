namespace Deductions

/-- Whether `s` can be a segment of a path: a letter or an underscore, then letters, digits and
underscores, all of ASCII. -/
def isIdentifier (s : String) : Bool :=
  match s.toList with
  | [] => false
  | c :: rest => (c.isAlpha || c == '_') && rest.all fun c => c.isAlphanum || c == '_'

/-- A non-empty sequence of segments. -/
structure Path where
  segments : List String
  nonempty : segments ≠ []
deriving DecidableEq

inductive PathError where
  | empty
  | invalidSegment (path segment : String)
deriving DecidableEq

def PathError.message : PathError → String
  | .empty => "empty path"
  | .invalidSegment path segment => s!"invalid segment '{segment}' in path '{path}'"

/-- Paths are compared segment by segment. -/
instance : Ord Path := ⟨compareOn Path.segments⟩

instance : Std.TransOrd Path := inferInstanceAs (Std.TransCmp (compareOn Path.segments))

instance : Std.LawfulEqOrd Path where
  eq_of_compare {p q} same := by
    have segments : p.segments = q.segments := Std.LawfulEqOrd.eq_of_compare same
    cases p
    cases q
    simpa using segments

/-- The pieces of `text` between the dots; one piece where there is no dot. -/
def splitDots : List Char → List (List Char)
  | [] => [[]]
  | '.' :: rest => [] :: splitDots rest
  | c :: rest =>
    match splitDots rest with
    | [] => [[c]]
    | piece :: pieces => (c :: piece) :: pieces

namespace Path

instance : Inhabited Path := ⟨["_"], by simp⟩

def text (p : Path) : String := ".".intercalate p.segments

instance : ToString Path := ⟨text⟩

/-- The path of the given segments, if there is one and all are identifiers. -/
def ofSegments? (segments : List String) : Option Path :=
  if nonempty : segments ≠ [] then
    if segments.all isIdentifier then some ⟨segments, nonempty⟩ else none
  else none

/-- Reads a dotted path such as `a.b.Thm`. -/
def parse (s : String) : Except PathError Path :=
  if s.isEmpty then .error .empty
  else
    let segments := (splitDots s.toList).map String.ofList
    match segments.find? fun segment => !isIdentifier segment with
    | some segment => .error (.invalidSegment s segment)
    | none =>
      if nonempty : segments ≠ [] then .ok ⟨segments, nonempty⟩ else .error .empty

def length (p : Path) : Nat := p.segments.length

/-- The last segment. -/
def name (p : Path) : String := p.segments.getLast p.nonempty

/-- The first segment. -/
def head (p : Path) : String := p.segments.head p.nonempty

/-- The path of one segment. -/
def single (name : String) : Path := ⟨[name], by simp⟩

/-- The path of the given segments, if there is one. -/
def ofList? (segments : List String) : Option Path :=
  if nonempty : segments ≠ [] then some ⟨segments, nonempty⟩ else none

/-- The path without its last segment. -/
def parent (p : Path) : Option Path := ofList? p.segments.dropLast

/-- The path followed by one more segment. -/
def child (p : Path) (name : String) : Path := ⟨p.segments ++ [name], by simp⟩

/-- The path followed by all segments of `rest`. -/
def join (p rest : Path) : Path := ⟨p.segments ++ rest.segments, by simp [p.nonempty]⟩

/-- Whether the segments of `p` begin with all those of `base`; every path begins with itself. -/
def startsWith (p base : Path) : Bool := base.segments.isPrefixOf p.segments

/-- The segments after `base`, if `p` begins with `base` and goes on after it. -/
def strip? (p base : Path) : Option Path :=
  if p.startsWith base then ofList? (p.segments.drop base.length) else none

/-- The first `n` segments, if there are as many and `n` is not zero. -/
def take? (p : Path) (n : Nat) : Option Path :=
  if n ≤ p.length then ofList? (p.segments.take n) else none

/-- What is left after the first `n` segments, if anything is. -/
def drop? (p : Path) (n : Nat) : Option Path := ofList? (p.segments.drop n)

end Path

end Deductions
