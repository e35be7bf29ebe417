import Deductions.Graph
import Deductions.Json
import Deductions.Version.Tag

namespace Deductions

def Path.json (p : Path) : Json := .string p.text

def Path.ofJson? (j : Json) : Option Path := do
  let text ← j.string?
  (Path.parse text).toOption

def Version.json (v : Version) : Json := .string v.text

def Version.ofJson? (j : Json) : Option Version := do
  let text ← j.string?
  (Version.parse text).toOption

namespace Json

def ofList {α : Type} (write : α → Json) (l : List α) : Json := .array (l.map write)

def ofStrings (l : List String) : Json := ofList .string l

def strings? : Json → Option (List String) := list? string?

/-- A map from paths as the object of its entries. -/
def ofPathMap {ν : Type} (write : ν → Json) (m : SortedMap Path ν) : Json :=
  .object (m.entries.map fun e => (e.1.text, write e.2))

/-- A map from texts as the object of its entries. -/
def ofStringMap {ν : Type} (write : ν → Json) (m : SortedMap String ν) : Json :=
  .object (m.entries.map fun e => (e.1, write e.2))

/-- Reads a map from paths; of two members with one path the later one counts. -/
def pathMap? {ν : Type} (read : Json → Option ν) : Json → Option (SortedMap Path ν)
  | .object members => do
    let entries ← members.mapM fun (name, value) => do
      return (← (Path.parse name).toOption, ← read value)
    return SortedMap.ofList entries
  | _ => none

/-- Reads a map from texts; of two members with one name the later one counts. -/
def stringMap? {ν : Type} (read : Json → Option ν) : Json → Option (SortedMap String ν)
  | .object members => do
    let entries ← members.mapM fun (name, value) => do return (name, ← read value)
    return SortedMap.ofList entries
  | _ => none

end Json

namespace NodeRef

def json (r : NodeRef) : Json := .object [("path", r.path.json), ("version", r.version.json)]

def layout : List (String × Presence) := [("path", .required), ("version", .required)]

def ofJson? (j : Json) : Option NodeRef := do
  match ← j.record? layout with
  | [some path, some version] => return ⟨← Path.ofJson? path, ← Version.ofJson? version⟩
  | _ => none

end NodeRef

namespace NarrationStep

def json (s : NarrationStep) : Json :=
  .object [("index", .natural s.index), ("sentence", .string s.sentence),
    ("connective", .string s.connective.name), ("antecedents", .ofStrings s.antecedents),
    ("conclusions", .ofStrings s.conclusions)]

def layout : List (String × Presence) :=
  [("index", .required), ("sentence", .required), ("connective", .required),
    ("antecedents", .required), ("conclusions", .required)]

def ofJson? (j : Json) : Option NarrationStep := do
  match ← j.record? layout with
  | [some index, some sentence, some connective, some antecedents, some conclusions] =>
    return {
      index := ← index.index?
      sentence := ← sentence.string?
      connective := ← Connective.ofName? (← connective.caseName?)
      antecedents := ← antecedents.strings?
      conclusions := ← conclusions.strings? }
  | _ => none

end NarrationStep

namespace ResolvedStep

def json (s : ResolvedStep) : Json :=
  .object [("index", .natural s.index), ("connective", .string s.connective.name),
    ("antecedents", .ofList NodeRef.json s.antecedents),
    ("conclusions", .ofList NodeRef.json s.conclusions)]

def layout : List (String × Presence) :=
  [("index", .required), ("connective", .required), ("antecedents", .required),
    ("conclusions", .required)]

def ofJson? (j : Json) : Option ResolvedStep := do
  match ← j.record? layout with
  | [some index, some connective, some antecedents, some conclusions] =>
    return {
      index := ← index.index?
      connective := ← Connective.ofName? (← connective.caseName?)
      antecedents := ← antecedents.list? NodeRef.ofJson?
      conclusions := ← conclusions.list? NodeRef.ofJson? }
  | _ => none

end ResolvedStep

namespace Node

def json (n : Node) : Json :=
  .object [("path", n.path.json), ("version", n.version.json), ("kind", .string n.kind.name),
    ("fields", .ofStringMap .string n.fields), ("children", .ofList Path.json n.children),
    ("narration", .ofOption (.ofList NarrationStep.json) n.narration), ("wolog", .bool n.wolog)]

def layout : List (String × Presence) :=
  [("path", .required), ("version", .required), ("kind", .required), ("fields", .required),
    ("children", .required), ("narration", .nullable), ("wolog", .optional)]

def ofJson? (j : Json) : Option Node := do
  match ← j.record? layout with
  | [some path, some version, some kind, some fields, some children, some narration, wolog] =>
    return {
      path := ← Path.ofJson? path
      version := ← Version.ofJson? version
      kind := ← NodeKind.ofName? (← kind.caseName?)
      fields := ← fields.stringMap? Json.string?
      children := ← children.list? Path.ofJson?
      narration := ← narration.nullable? (Json.list? NarrationStep.ofJson?)
      wolog := ← (wolog.map Json.bool?).getD (some false) }
  | _ => none

end Node

namespace Edge

/-- The name by which the form of an edge says which case it is. -/
def formName : EdgeKind → String
  | .expansion => "expansion"
  | .contradiction => "contradiction"
  | .alternativeCase => "alternative_case"
  | .annotates => "annotates"
  | .inference => "inference"
  | .ghost => "ghost_reference"

def members : Edge → List (String × Json)
  | .expansion source targets origin =>
    [("source", source.json), ("targets", .ofList NodeRef.json targets),
      ("origin", .string origin.name)]
  | .contradiction source target
  | .alternativeCase source target
  | .annotates source target => [("source", source.json), ("target", target.json)]
  | .inference source target owner step =>
    [("from", source.json), ("to", target.json), ("owner", owner.json), ("step", .natural step)]
  | .ghost source target role =>
    [("source", source.json), ("target", target.json), ("role", .string role.name)]

def json (e : Edge) : Json := .object (("kind", .string (formName e.kind)) :: e.members)

def pairLayout : List (String × Presence) := [("source", .required), ("target", .required)]

def pair? (j : Json) : Option (NodeRef × NodeRef) := do
  match ← j.record? pairLayout with
  | [some source, some target] => return (← NodeRef.ofJson? source, ← NodeRef.ofJson? target)
  | _ => none

def expansion? (j : Json) : Option Edge := do
  match ← j.record? [("source", .required), ("targets", .required), ("origin", .required)] with
  | [some source, some targets, some origin] =>
    return .expansion (← NodeRef.ofJson? source) (← targets.list? NodeRef.ofJson?)
      (← ExpansionOrigin.ofName? (← origin.looseCaseName?))
  | _ => none

def inference? (j : Json) : Option Edge := do
  match ← j.record? [("from", .required), ("to", .required), ("owner", .required),
    ("step", .required)] with
  | [some source, some target, some owner, some step] =>
    return .inference (← NodeRef.ofJson? source) (← NodeRef.ofJson? target)
      (← Path.ofJson? owner) (← step.index?)
  | _ => none

def ghost? (j : Json) : Option Edge := do
  match ← j.record? [("source", .required), ("target", .required), ("role", .required)] with
  | [some source, some target, some role] =>
    return .ghost (← NodeRef.ofJson? source) (← NodeRef.ofJson? target)
      (← GhostRole.ofName? (← role.looseCaseName?))
  | _ => none

/-- Reads the members of the case called `name`. -/
def ofCase? (name : String) (j : Json) : Option Edge :=
  match name with
  | "expansion" => expansion? j
  | "contradiction" => (pair? j).map fun p => .contradiction p.1 p.2
  | "alternative_case" => (pair? j).map fun p => .alternativeCase p.1 p.2
  | "annotates" => (pair? j).map fun p => .annotates p.1 p.2
  | "inference" => inference? j
  | "ghost_reference" => ghost? j
  | _ => none

/-- Reads the case by its name, which stands in the member `kind`, or first in an array. -/
def ofForm? : Json → Option Edge
  | .object members => do
    match ← Json.member? members "kind" with
    | some (.string name) => ofCase? name (.object (members.filter fun m => m.1 != "kind"))
    | _ => none
  | .array (.string name :: rest) => ofCase? name (.array rest)
  | _ => none

/-- Values nest less than 128 deep, and an edge stands in the list of edges of a snapshot. -/
def nestingLimit : Nat := 125

/-- The case is known only when its name has been found, until when the form is kept. -/
def ofJson? (j : Json) : Option Edge := if j.isKept nestingLimit then ofForm? j else none

end Edge

namespace ModuleGraph

def json (g : ModuleGraph) : Json :=
  .object [("module", g.module.json), ("version", g.version.json),
    ("nodes", .ofPathMap Node.json g.nodes), ("roots", .ofList Path.json g.roots),
    ("edges", .ofList Edge.json g.edges)]

end ModuleGraph

end Deductions
