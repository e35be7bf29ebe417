import Deductions.Kind
import Deductions.Path
import Deductions.Source.Span

namespace Deductions

/-- The module an import names. Leading dots make the path relative: one dot is the package of the
importing module, each further dot one package further out. -/
structure ModuleName where
  dots : Nat
  segments : List String
deriving DecidableEq

def ModuleName.text (m : ModuleName) : String :=
  String.ofList (List.replicate m.dots '.') ++ ".".intercalate m.segments

structure ImportedName where
  name : String
  newName : Option String
deriving DecidableEq

/-- The name by which the importing module knows it. -/
def ImportedName.localName (n : ImportedName) : String := n.newName.getD n.name

inductive ImportForm where
  /-- `import a.b.c as x` -/
  | whole (newName : Option String)
  /-- `from a.b import *` -/
  | everything
  /-- `from a.b import X as Y, Z` -/
  | names (list : List ImportedName)
deriving DecidableEq

structure Import where
  module : ModuleName
  form : ImportForm
  span : Span
deriving DecidableEq

/-- The names that an import binds. -/
def Import.localNames (i : Import) : List String :=
  match i.form with
  | .whole (some newName) => [newName]
  | .whole none => i.module.segments.getLast?.toList
  | .everything => []
  | .names list => list.map ImportedName.localName

/-- What stands between the name of a block and its body. -/
structure Clauses where
  of : List Path := []
  on : List Path := []
  versus : List Path := []
  contra : List Path := []
  wolog : Bool := false
deriving DecidableEq

inductive FieldValue where
  /-- A text between quotes, its escapes already replaced. -/
  | quoted (text : String)
  /-- A text between two `@@@`, as it stands there. -/
  | raw (text : String)
deriving DecidableEq

def FieldValue.text : FieldValue → String
  | .quoted text | .raw text => text

def FieldValue.isRaw : FieldValue → Bool
  | .quoted _ => false
  | .raw _ => true

structure Field where
  name : String
  value : FieldValue
  span : Span
deriving DecidableEq

/-- A block apart from what is inside it. -/
structure Header where
  kind : NodeKind
  name : String
  clauses : Clauses
  span : Span
deriving DecidableEq

/-- What can stand inside a block. -/
inductive Item where
  | field (f : Field)
  | block (header : Header) (items : List Item)

structure Block where
  header : Header
  /-- Fields and inner blocks in source order. -/
  items : List Item

structure Source where
  imports : List Import := []
  blocks : List Block := []

mutual

def Item.beq : Item → Item → Bool
  | .field f, .field g => f == g
  | .block h items, .block h' items' => h == h' && Item.beqList items items'
  | _, _ => false

def Item.beqList : List Item → List Item → Bool
  | [], [] => true
  | i :: items, j :: items' => i.beq j && Item.beqList items items'
  | _, _ => false

end

instance : BEq Item := ⟨Item.beq⟩

deriving instance BEq for Block, Source

mutual

/-- The item with empty spans. -/
def Item.eraseSpans : Item → Item
  | .field f => .field { f with span := {} }
  | .block header items => .block { header with span := {} } (Item.eraseSpansList items)

def Item.eraseSpansList : List Item → List Item
  | [] => []
  | i :: items => i.eraseSpans :: Item.eraseSpansList items

end

namespace Item

def field? : Item → Option Field
  | .field f => some f
  | .block .. => none

def block? : Item → Option Block
  | .field _ => none
  | .block header items => some ⟨header, items⟩

end Item

namespace Block

def fields (b : Block) : List Field := b.items.filterMap Item.field?

def inner (b : Block) : List Block := b.items.filterMap Item.block?

def field? (b : Block) (name : String) : Option Field := b.fields.find? fun f => f.name == name

def eraseSpans (b : Block) : Block :=
  ⟨{ b.header with span := {} }, Item.eraseSpansList b.items⟩

end Block

/-- The source with empty spans: what is left when positions do not count. -/
def Source.eraseSpans (s : Source) : Source where
  imports := s.imports.map fun i => { i with span := {} }
  blocks := s.blocks.map Block.eraseSpans

end Deductions
