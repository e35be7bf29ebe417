import Deductions.Narration

namespace Deductions

/-- What supports an expansion: the declaration alone, or also a sentence of the narration that
concludes one of the targets. -/
inductive ExpansionOrigin where
  | declared
  | narrated
deriving DecidableEq

/-- The part a reference played before the node it names was lost. -/
inductive GhostRole where
  | expansion
  | narration
  | contradiction
  | alternativeCase
  | note
  | retarget
deriving DecidableEq

inductive EdgeKind where
  | expansion
  | contradiction
  | alternativeCase
  | annotates
  | inference
  | ghost
deriving DecidableEq

inductive Edge where
  /-- The deduction `source` proves all of `targets`. -/
  | expansion (source : NodeRef) (targets : List NodeRef) (origin : ExpansionOrigin)
  /-- The falsum `source` contradicts the supposition `target`. -/
  | contradiction (source target : NodeRef)
  /-- The suppositions `source` and `target` are alternative cases. -/
  | alternativeCase (source target : NodeRef)
  | annotates (source target : NodeRef)
  /-- Step `step` of the narration of `owner` infers `target` from `source`. -/
  | inference (source target : NodeRef) (owner : Path) (step : Nat)
  /-- A reference from `source` to a node of an earlier version that is there no more. -/
  | ghost (source target : NodeRef) (role : GhostRole)
deriving DecidableEq

def ExpansionOrigin.name : ExpansionOrigin → String
  | .declared => "declared"
  | .narrated => "narrated"

def ExpansionOrigin.ofName? (name : String) : Option ExpansionOrigin :=
  [.declared, .narrated].find? fun origin => origin.name == name

namespace GhostRole

def all : List GhostRole :=
  [.expansion, .narration, .contradiction, .alternativeCase, .note, .retarget]

def name : GhostRole → String
  | .expansion => "expansion"
  | .narration => "narration"
  | .contradiction => "contradiction"
  | .alternativeCase => "alternative_case"
  | .note => "annotation"
  | .retarget => "retarget"

def ofName? (name : String) : Option GhostRole := all.find? fun role => role.name == name

end GhostRole

def EdgeKind.word : EdgeKind → String
  | .expansion => "EXPANDS"
  | .contradiction => "CONTRADICTS"
  | .alternativeCase => "VERSUS"
  | .annotates => "ANNOTATES"
  | .inference => "IMPLIES"
  | .ghost => "GHOST"

instance : ToString EdgeKind := ⟨EdgeKind.word⟩

namespace Edge

def kind : Edge → EdgeKind
  | .expansion .. => .expansion
  | .contradiction .. => .contradiction
  | .alternativeCase .. => .alternativeCase
  | .annotates .. => .annotates
  | .inference .. => .inference
  | .ghost .. => .ghost

def source : Edge → NodeRef
  | .expansion source _ _
  | .contradiction source _
  | .alternativeCase source _
  | .annotates source _
  | .inference source _ _ _
  | .ghost source _ _ => source

def targets : Edge → List NodeRef
  | .expansion _ targets _ => targets
  | .contradiction _ target
  | .alternativeCase _ target
  | .annotates _ target
  | .inference _ target _ _
  | .ghost _ target _ => [target]

def endpoints (e : Edge) : List NodeRef := e.source :: e.targets

def isExpansion : Edge → Bool
  | .expansion .. => true
  | _ => false

def isGhost : Edge → Bool
  | .ghost .. => true
  | _ => false

def text (e : Edge) : String :=
  s!"{e.source} -[{e.kind}]-> " ++ ", ".intercalate (e.targets.map NodeRef.text)

instance : ToString Edge := ⟨text⟩

end Edge

end Deductions
