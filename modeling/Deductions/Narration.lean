import Deductions.FirstOccurrence
import Deductions.Path
import Deductions.Version

namespace Deductions

/-- A node at a version of its module. -/
structure NodeRef where
  path : Path
  version : Version
deriving DecidableEq

namespace NodeRef

instance : Inhabited NodeRef := ⟨⟨default, default⟩⟩

def text (r : NodeRef) : String := s!"{r.path}@{r.version}"

instance : ToString NodeRef := ⟨text⟩

protected def compare : NodeRef → NodeRef → Ordering :=
  compareLex (compareOn path) (compareOn version)

instance : Ord NodeRef := ⟨NodeRef.compare⟩

instance : Std.TransOrd NodeRef :=
  inferInstanceAs (Std.TransCmp (compareLex (compareOn path) (compareOn version)))

instance : Std.LawfulEqOrd NodeRef where
  eq_of_compare {a b} same := by
    change NodeRef.compare a b = .eq at same
    simp only [NodeRef.compare, compareLex_eq_eq, compareOn, Std.LawfulEqCmp.compare_eq_iff_eq]
      at same
    cases a
    cases b
    simp_all

end NodeRef

/-- How a sentence connects to what came before it. -/
inductive Connective where
  | suppose
  | fromGet
  | next
  | therefore
  | byNames
  | usingNames
deriving DecidableEq

namespace Connective

def all : List Connective := [.suppose, .fromGet, .next, .therefore, .byNames, .usingNames]

def word : Connective → String
  | .suppose => "suppose"
  | .fromGet => "from-get"
  | .next => "next"
  | .therefore => "therefore"
  | .byNames => "by"
  | .usingNames => "using"

def name : Connective → String
  | .suppose => "Suppose"
  | .fromGet => "FromGet"
  | .next => "Next"
  | .therefore => "Therefore"
  | .byNames => "By"
  | .usingNames => "Using"

def ofName? (name : String) : Option Connective := all.find? fun c => c.name == name

end Connective

/-- A sentence of a narration. Sentences are counted from one, and `sentence` is the trimmed text
without its period. -/
structure NarrationStep where
  index : Nat
  sentence : String
  connective : Connective
  antecedents : List String
  conclusions : List String
deriving DecidableEq

/-- A sentence of a narration with the nodes that its names mean. -/
structure ResolvedStep where
  index : Nat
  connective : Connective
  antecedents : List NodeRef
  conclusions : List NodeRef
deriving DecidableEq

/-- The names of a step, antecedents first. -/
def NarrationStep.names (step : NarrationStep) : List String :=
  firstOccurrences (step.antecedents ++ step.conclusions)

end Deductions
