import Deductions.Graph.Json
import Deductions.Source

namespace Deductions

def Span.json (s : Span) : Json :=
  .object [("start", .natural s.start), ("end", .natural s.stop), ("line", .natural s.line.toNat),
    ("col", .natural s.column.toNat)]

def Span.ofJson? (j : Json) : Option Span := do
  match ← j.record? [("start", .required), ("end", .required), ("line", .required),
    ("col", .required)] with
  | [some start, some stop, some line, some column] =>
    return ⟨← start.index?, ← stop.index?, .ofNat (← line.shortIndex?), .ofNat (← column.shortIndex?)⟩
  | _ => none

def ModuleName.json (m : ModuleName) : Json :=
  .object [("dots", .natural m.dots), ("segments", .ofStrings m.segments)]

def ModuleName.ofJson? (j : Json) : Option ModuleName := do
  match ← j.record? [("dots", .required), ("segments", .required)] with
  | [some dots, some segments] => return ⟨← dots.index?, ← segments.strings?⟩
  | _ => none

def ImportedName.json (n : ImportedName) : Json :=
  .object [("name", .string n.name), ("alias", .ofOption .string n.newName)]

def ImportedName.ofJson? (j : Json) : Option ImportedName := do
  match ← j.record? [("name", .required), ("alias", .nullable)] with
  | [some name, some newName] => return ⟨← name.string?, ← newName.nullable? Json.string?⟩
  | _ => none

def ImportForm.json : ImportForm → Json
  | .whole newName => .object [("Module", .object [("alias", .ofOption .string newName)])]
  | .everything => .string "Glob"
  | .names list => .object [("Names", .ofList ImportedName.json list)]

def ImportForm.ofJson? : Json → Option ImportForm
  | .object [("Module", j)] => do
    match ← j.record? [("alias", .nullable)] with
    | [some newName] => return .whole (← newName.nullable? Json.string?)
    | _ => none
  | .object [("Names", j)] => .names <$> j.list? ImportedName.ofJson?
  | j => if j.caseName? = some "Glob" then some .everything else none

def Import.json (i : Import) : Json :=
  .object [("module", i.module.json), ("kind", i.form.json), ("span", i.span.json)]

def Import.ofJson? (j : Json) : Option Import := do
  match ← j.record? [("module", .required), ("kind", .required), ("span", .required)] with
  | [some module, some form, some span] =>
    return ⟨← ModuleName.ofJson? module, ← ImportForm.ofJson? form, ← Span.ofJson? span⟩
  | _ => none

def Clauses.json (c : Clauses) : Json :=
  .object [("of", .ofList Path.json c.of), ("on", .ofList Path.json c.on),
    ("versus", .ofList Path.json c.versus), ("contra", .ofList Path.json c.contra),
    ("wolog", .bool c.wolog)]

def Clauses.ofJson? (j : Json) : Option Clauses := do
  match ← j.record? [("of", .required), ("on", .required), ("versus", .required),
    ("contra", .required), ("wolog", .required)] with
  | [some of, some on, some versus, some contra, some wolog] =>
    return ⟨← of.list? Path.ofJson?, ← on.list? Path.ofJson?, ← versus.list? Path.ofJson?,
      ← contra.list? Path.ofJson?, ← wolog.bool?⟩
  | _ => none

def FieldValue.json : FieldValue → Json
  | .quoted text => .object [("Quoted", .string text)]
  | .raw text => .object [("Raw", .string text)]

def FieldValue.ofJson? : Json → Option FieldValue
  | .object [("Quoted", .string text)] => some (.quoted text)
  | .object [("Raw", .string text)] => some (.raw text)
  | _ => none

def Field.json (f : Field) : Json :=
  .object [("name", .string f.name), ("value", f.value.json), ("span", f.span.json)]

def Field.ofJson? (j : Json) : Option Field := do
  match ← j.record? [("name", .required), ("value", .required), ("span", .required)] with
  | [some name, some value, some span] =>
    return ⟨← name.string?, ← FieldValue.ofJson? value, ← Span.ofJson? span⟩
  | _ => none

def Header.jsonWith (h : Header) (items : List Json) : Json :=
  .object [("kind", .string h.kind.name), ("name", .string h.name), ("clauses", h.clauses.json),
    ("items", .array items), ("span", h.span.json)]

mutual

def Item.json : Item → Json
  | .field f => .object [("Field", f.json)]
  | .block header items => .object [("Block", header.jsonWith (Item.jsonList items))]

def Item.jsonList : List Item → List Json
  | [] => []
  | i :: items => i.json :: Item.jsonList items

end

def Block.json (b : Block) : Json := b.header.jsonWith (Item.jsonList b.items)

/-- A block apart from its items, and the form of those. -/
def Header.ofJson? (j : Json) : Option (Header × List Json) := do
  match ← j.record? [("kind", .required), ("name", .required), ("clauses", .required),
    ("items", .required), ("span", .required)] with
  | [some kind, some name, some clauses, some (.array items), some span] =>
    return (⟨← NodeKind.ofName? (← kind.caseName?), ← name.string?, ← Clauses.ofJson? clauses,
      ← Span.ofJson? span⟩, items)
  | _ => none

/-- Reads items that nest at most `depth` deep. -/
def Item.ofJson? : Nat → Json → Option Item
  | _, .object [("Field", j)] => .field <$> Field.ofJson? j
  | 0, _ => none
  | depth + 1, .object [("Block", j)] => do
    let (header, items) ← Header.ofJson? j
    return .block header (← items.mapM (Item.ofJson? depth))
  | _, _ => none

def Block.ofJson? (j : Json) : Option Block := do
  let (header, items) ← Header.ofJson? j
  return ⟨header, ← items.mapM (Item.ofJson? j.depth)⟩

def Source.json (s : Source) : Json :=
  .object [("imports", .ofList Import.json s.imports), ("blocks", .ofList Block.json s.blocks)]

def Source.ofJson? (j : Json) : Option Source := do
  match ← j.record? [("imports", .required), ("blocks", .required)] with
  | [some imports, some blocks] =>
    return ⟨← imports.list? Import.ofJson?, ← blocks.list? Block.ofJson?⟩
  | _ => none

end Deductions
