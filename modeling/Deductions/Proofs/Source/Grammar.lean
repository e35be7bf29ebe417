import Deductions.Proofs.Source.Spelling
import Deductions.Source.Printer
import Deductions.Source.Reader

namespace Deductions

/-- Groups of tokens with `mark` between them. -/
def separated (mark : Token) : List (List Token) → List Token
  | [] => []
  | first :: rest => first ++ rest.flatMap (mark :: ·)

def dottedTokens (segments : List String) : List Token :=
  separated .dot (segments.map fun s => [.identifier s])

def Path.tokens (p : Path) : List Token := dottedTokens p.segments

def ModuleName.tokens (m : ModuleName) : List Token :=
  List.replicate m.dots .dot ++ dottedTokens m.segments

def aliasTokens : Option String → List Token
  | none => []
  | some name => [.asWord, .identifier name]

def ImportedName.tokens (n : ImportedName) : List Token :=
  .identifier n.name :: aliasTokens n.newName

def ImportForm.tokens : ImportForm → List Token
  | .whole newName => aliasTokens newName
  | .everything => [.importWord, .star]
  | .names list => .importWord :: separated .comma (list.map ImportedName.tokens)

def ImportForm.word : ImportForm → Token
  | .whole _ => .importWord
  | .everything | .names _ => .fromWord

def Import.tokens (i : Import) : List Token := i.form.word :: (i.module.tokens ++ i.form.tokens)

def pathsTokens (paths : List Path) : List Token := separated .comma (paths.map Path.tokens)

def clauseTokens (word : Token) (paths : List Path) : List Token :=
  if paths.isEmpty then [] else word :: pathsTokens paths

def Clauses.tokens (c : Clauses) : List Token :=
  clauseTokens .ofWord c.of ++ clauseTokens .onWord c.on ++ clauseTokens .versusWord c.versus ++
    clauseTokens .contraWord c.contra ++ if c.wolog then [.wologWord] else []

def FieldValue.token : FieldValue → Token
  | .quoted text => .string (text.toList.flatMap escapeQuoted)
  | .raw text => .raw text.toList

def Field.tokens (f : Field) : List Token := [.identifier f.name, .equals, f.value.token]

def Header.tokens (h : Header) : List Token :=
  .block h.kind :: .identifier h.name :: (h.clauses.tokens ++ [.openBrace])

mutual

def Item.tokens : Item → List Token
  | .field f => f.tokens
  | .block header items => header.tokens ++ (Item.listTokens items ++ [.closeBrace])

def Item.listTokens : List Item → List Token
  | [] => []
  | i :: items => i.tokens ++ Item.listTokens items

end

def Block.tokens (b : Block) : List Token := (Item.block b.header b.items).tokens

def Source.tokens (s : Source) : List Token :=
  s.imports.flatMap Import.tokens ++ s.blocks.flatMap Block.tokens

def ModuleName.IsWellFormed (m : ModuleName) : Prop := ∀ s ∈ m.segments, IsName s

def Path.IsWellFormed (p : Path) : Prop := ∀ s ∈ p.segments, IsName s

def ImportedName.IsWellFormed (n : ImportedName) : Prop :=
  IsName n.name ∧ ∀ newName ∈ n.newName, IsName newName

/-- A whole module has a name of its own; what names are imported from is at least a package. -/
def ImportForm.IsWellFormed (module : ModuleName) : ImportForm → Prop
  | .whole newName => module.segments ≠ [] ∧ ∀ name ∈ newName, IsName name
  | .everything => module.segments ≠ [] ∨ module.dots ≠ 0
  | .names list =>
    (module.segments ≠ [] ∨ module.dots ≠ 0) ∧ list ≠ [] ∧ ∀ n ∈ list, n.IsWellFormed

def Import.IsWellFormed (i : Import) : Prop :=
  i.module.IsWellFormed ∧ i.form.IsWellFormed i.module

/-- Every clause stands on a block of its kind, and names nodes by paths of names. -/
structure Clauses.IsWellFormed (kind : NodeKind) (c : Clauses) : Prop where
  of : c.of ≠ [] → kind = .deduction
  on : c.on ≠ [] → kind = .note
  versus : c.versus ≠ [] → kind = .supposition
  contra : c.contra ≠ [] → kind = .falsum
  wolog : c.wolog = true → kind = .supposition
  paths : ∀ p ∈ c.of ++ c.on ++ c.versus ++ c.contra, p.IsWellFormed

def FieldValue.IsWellFormed : FieldValue → Prop
  | .quoted _ => True
  | .raw text => IsRaw text.toList

def Field.IsWellFormed (f : Field) : Prop := IsName f.name ∧ f.value.IsWellFormed

def Header.IsWellFormed (h : Header) : Prop := IsName h.name ∧ h.clauses.IsWellFormed h.kind

/-- No two fields and no two blocks of a list have one name. -/
def HasDistinctNames (items : List Item) : Prop :=
  (fieldNames items).Nodup ∧ (blockNames items).Nodup

mutual

/-- Whether an item can stand in a block of kind `outer`. -/
def Item.IsWellFormed (outer : NodeKind) : Item → Prop
  | .field f => f.IsWellFormed
  | .block header items =>
    outer.mayContain header.kind = true ∧ header.IsWellFormed ∧ HasDistinctNames items ∧
      Item.AreWellFormed header.kind items

def Item.AreWellFormed (outer : NodeKind) : List Item → Prop
  | [] => True
  | i :: items => i.IsWellFormed outer ∧ Item.AreWellFormed outer items

end

/-- Whether a block can stand at top level. -/
structure Block.IsWellFormed (b : Block) : Prop where
  kind : b.header.kind = .deduction ∨ b.header.kind = .note
  header : b.header.IsWellFormed
  distinct : HasDistinctNames b.items
  items : Item.AreWellFormed b.header.kind b.items

/-- The names that a source binds at top level. -/
def Source.boundNames (s : Source) : List String :=
  s.imports.flatMap Import.localNames ++ s.blocks.map fun b => b.header.name

/-- Whether a source can be written down. -/
structure Source.IsWellFormed (s : Source) : Prop where
  imports : ∀ i ∈ s.imports, i.IsWellFormed
  blocks : ∀ b ∈ s.blocks, b.IsWellFormed
  distinct : s.boundNames.Nodup

theorem fieldNames_append (items items' : List Item) :
    fieldNames (items ++ items') = fieldNames items ++ fieldNames items' := by
  simp [fieldNames]

theorem blockNames_append (items items' : List Item) :
    blockNames (items ++ items') = blockNames items ++ blockNames items' := by
  simp [blockNames]

theorem Item.areWellFormed_iff {outer : NodeKind} {items : List Item} :
    Item.AreWellFormed outer items ↔ ∀ i ∈ items, i.IsWellFormed outer := by
  induction items with
  | nil => simp [Item.AreWellFormed]
  | cons i items ih => simp [Item.AreWellFormed, ih]

end Deductions
