namespace Deductions

inductive NodeKind where
  | deduction
  | subDeduction
  | assertion
  | supposition
  /-- The contradiction reached under one or more suppositions. -/
  | falsum
  | existential
  | introduction
  | note
deriving DecidableEq

namespace NodeKind

def all : List NodeKind :=
  [.deduction, .subDeduction, .assertion, .supposition, .falsum, .existential, .introduction,
    .note]

/-- The word that opens a block of the kind. -/
def keyword : NodeKind → String
  | .deduction => "deduc"
  | .subDeduction => "subdeduc"
  | .assertion => "asrt"
  | .supposition => "supp"
  | .falsum => "flse"
  | .existential => "exis"
  | .introduction => "intr"
  | .note => "anno"

def ofKeyword? (word : String) : Option NodeKind := all.find? fun kind => kind.keyword == word

def name : NodeKind → String
  | .deduction => "Deduction"
  | .subDeduction => "SubDeduction"
  | .assertion => "Assertion"
  | .supposition => "Supposition"
  | .falsum => "Falsum"
  | .existential => "Existential"
  | .introduction => "Introduction"
  | .note => "Annotation"

instance : ToString NodeKind := ⟨name⟩

def ofName? (name : String) : Option NodeKind := all.find? fun kind => kind.name == name

/-- Whether nodes of the kind own a narration. -/
def isDeductive : NodeKind → Bool
  | .deduction | .subDeduction => true
  | _ => false

/-- Whether nodes of the kind are posited, never concluded. -/
def isModal : NodeKind → Bool
  | .supposition | .introduction => true
  | _ => false

def allowedFields : NodeKind → List String
  | .deduction | .subDeduction => ["en", "narration"]
  | .note => ["body"]
  | _ => ["en", "sy"]

/-- The fields of which a node of the kind carries at least one; none where it need not. -/
def requiredFields : NodeKind → List String
  | .assertion | .supposition | .introduction => ["en", "sy"]
  | .note => ["body"]
  | _ => []

/-- Whether a block of kind `inner` may stand directly inside one of kind `outer`. -/
def mayContain (outer inner : NodeKind) : Bool :=
  match outer with
  | .deduction | .subDeduction => inner != .deduction && inner != .note
  | .existential =>
    match inner with
    | .introduction | .assertion | .supposition | .falsum | .existential => true
    | _ => false
  | _ => false

end NodeKind

end Deductions
