import Deductions.Proofs.Source.Alone
import Deductions.Proofs.Source.Outline
import Deductions.Proofs.Source.Slice

namespace Deductions

/-- No byte belongs to both. -/
def Span.IsApart (span span' : Span) : Prop := span.stop ≤ span'.start ∨ span'.stop ≤ span.start

def Item.span : Item → Span
  | .field f => f.span
  | .block header _ => header.span

namespace Source

/-- The spans of all imports and all top-level blocks. -/
def topSpans (s : Source) : List Span := s.imports.map Import.span ++ s.blocks.map fun b => b.header.span

/-- The spans of all imports, all blocks and all fields. -/
def spans (s : Source) : List Span :=
  s.imports.map Import.span ++ s.outline.flatMap fun p => p.block.header.span :: p.block.items.map Item.span

/-- The spans of a source tell where in the text its parts are. -/
structure HasExactSpans (text : String) (s : Source) : Prop where
  imports : ∀ i ∈ s.imports, ∃ slice alone, i.span.IsSlice text slice ∧ parse slice = .ok alone ∧
    alone.eraseSpans = ({ imports := [i] } : Source).eraseSpans
  blocks : ∀ b ∈ s.blocks, ∃ slice alone, b.header.span.IsSlice text slice ∧ parse slice = .ok alone ∧
    alone.eraseSpans = ({ blocks := [b] } : Source).eraseSpans
  nonempty : ∀ span ∈ s.spans, span.start < span.stop
  apart : s.topSpans.Pairwise Span.IsApart
  inside : ∀ p ∈ s.outline, ∀ i ∈ p.block.items,
    p.block.header.span.start < i.span.start ∧ i.span.stop < p.block.header.span.stop
  ordered : ∀ p ∈ s.outline, (p.block.items.map Item.span).Pairwise fun span span' => span.stop ≤ span'.start
  placed : ∀ span ∈ s.spans, span.IsPlaced text

end Source

variable {index : LineIndex}

mutual

/-- The item was read from the tokens: its span covers them, and a block has the tokens of its items inside it. -/
def Item.Takes (index : LineIndex) : Item → List Lexeme → Prop
  | .field f, taken => f.span.Covers index taken
  | .block header items, taken => header.span.Covers index taken ∧ ∃ opening inner closing,
      taken = opening ++ (inner ++ closing) ∧ opening ≠ [] ∧ closing ≠ [] ∧ Item.listTakes index items inner

/-- The items were read from the tokens, one behind the other. -/
def Item.listTakes (index : LineIndex) : List Item → List Lexeme → Prop
  | [], taken => taken = []
  | i :: items, taken => ∃ own others, taken = own ++ others ∧ i.Takes index own ∧ Item.listTakes index items others

end

theorem Item.Takes.covers {i : Item} {taken : List Lexeme} (takes : i.Takes index taken) :
    i.span.Covers index taken := by
  cases i with
  | field f =>
    rw [Item.Takes] at takes
    exact takes
  | block header items =>
    rw [Item.Takes] at takes
    exact takes.1

theorem Item.listTakes.of_mem {items : List Item} {i : Item} (member : i ∈ items) {taken : List Lexeme}
    (takes : Item.listTakes index items taken) : ∃ own, own <:+: taken ∧ i.Takes index own := by
  induction items generalizing taken with
  | nil => cases member
  | cons first items ih =>
    rw [Item.listTakes] at takes
    obtain ⟨own, others, rfl, takes, more⟩ := takes
    rcases List.mem_cons.mp member with rfl | member
    · exact ⟨own, (List.prefix_append own others).isInfix, takes⟩
    · obtain ⟨part, within, takes⟩ := ih member more
      exact ⟨part, within.trans (List.suffix_append own others).isInfix, takes⟩

theorem Item.listTakes.ordered {items : List Item} {taken : List Lexeme} (takes : Item.listTakes index items taken)
    (inOrder : InOrder taken) : (items.map Item.span).Pairwise fun span span' => span.stop ≤ span'.start := by
  induction items generalizing taken with
  | nil => exact .nil
  | cons first items ih =>
    rw [Item.listTakes] at takes
    obtain ⟨own, others, rfl, takes, more⟩ := takes
    rw [List.map_cons]
    have later := ih more (inOrder.sublist (List.sublist_append_right own others))
    refine List.pairwise_cons.mpr ⟨fun span member => ?_, later⟩
    obtain ⟨i, behind, rfl⟩ := List.mem_map.mp member
    obtain ⟨part, within, takesPart⟩ := more.of_mem behind
    exact takes.covers.stop_le takesPart.covers (inOrder.sublist (List.Sublist.append_left within.sublist own))

/-- A part of the tokens of a block are those of its items. -/
theorem Item.Takes.exists_items {header : Header} {items : List Item} {taken : List Lexeme}
    (takes : (Item.block header items).Takes index taken) :
    ∃ inner, inner <:+: taken ∧ Item.listTakes index items inner := by
  rw [Item.Takes] at takes
  obtain ⟨_, opening, inner, closing, rfl, _, _, takes⟩ := takes
  exact ⟨inner, (List.prefix_append inner closing).isInfix.trans (List.suffix_append opening _).isInfix, takes⟩

theorem Item.Takes.exists_item {header : Header} {items : List Item} {i : Item} {taken : List Lexeme}
    (takes : (Item.block header items).Takes index taken) (member : i ∈ items) :
    ∃ own, own <:+: taken ∧ i.Takes index own := by
  obtain ⟨inner, inside, takesAll⟩ := takes.exists_items
  obtain ⟨own, within, takesOwn⟩ := takesAll.of_mem member
  exact ⟨own, within.trans inside, takesOwn⟩

/-- What a block takes for an item is behind its first token and in front of its last one. -/
theorem Item.Takes.inside {header : Header} {items : List Item} {i : Item} {taken : List Lexeme}
    (takes : (Item.block header items).Takes index taken) (inOrder : InOrder taken) (member : i ∈ items) :
    header.span.start < i.span.start ∧ i.span.stop < header.span.stop := by
  rw [Item.Takes] at takes
  obtain ⟨covers, opening, inner, closing, rfl, opens, closes, takes⟩ := takes
  obtain ⟨own, within, takesOwn⟩ := takes.of_mem member
  obtain ⟨front, covers', start⟩ := covers.exists_front opens
  obtain ⟨back, covers'', stop⟩ := (List.append_assoc .. ▸ covers).exists_back closes
  have inFront : InOrder (opening ++ own) := by
    refine inOrder.sublist (List.Sublist.append_left ?_ opening)
    exact within.sublist.trans (List.sublist_append_left inner closing)
  have behind : InOrder (own ++ closing) := by
    refine inOrder.sublist (List.Sublist.trans ?_ (List.sublist_append_right opening _))
    exact List.Sublist.append_right within.sublist closing
  have starts := covers'.start_lt (inFront.sublist (List.sublist_append_left opening own))
  have ends := covers''.start_lt (behind.sublist (List.sublist_append_right own closing))
  have before := covers'.stop_le takesOwn.covers inFront
  have after := takesOwn.covers.stop_le covers'' behind
  rw [← start, ← stop]
  exact ⟨Nat.lt_of_lt_of_le starts before, Nat.lt_of_le_of_lt after ends⟩

theorem Item.Takes.exists_inner {p q : PlacedBlock} {taken : List Lexeme}
    (takes : (Item.block p.block.header p.block.items).Takes index taken) (inner : q ∈ p.inner) :
    ∃ own, own <:+: taken ∧ (Item.block q.block.header q.block.items).Takes index own := by
  obtain ⟨b, directly, rfl⟩ := List.mem_map.mp inner
  obtain ⟨i, member, same⟩ := List.mem_filterMap.mp directly
  cases i with
  | field f => cases same
  | block header items =>
    cases same
    exact takes.exists_item member

section

variable {a b : Ahead}

theorem Ahead.exists_lexeme {token : Token} (next : a.token? = some token) :
    ∃ l, a.lexemes = l :: a.skip.lexemes ∧ a.hereStop = l.stop := by
  obtain ⟨l, head, _⟩ := Option.map_eq_some_iff.mp next
  obtain ⟨rest, split⟩ := List.head?_eq_some_iff.mp head
  exact ⟨l, by rw [Ahead.skip, split]; rfl, by rw [Ahead.hereStop, head]; rfl⟩

/-- The span from here to the end of the last of some tokens ahead covers these. -/
theorem Ahead.covers_between {taken : List Lexeme} (split : a.lexemes = taken ++ b.lexemes) {last : Lexeme}
    (ends : taken.getLast? = some last) : (a.index.span a.here last.stop).Covers a.index taken := by
  cases taken with
  | nil => cases ends
  | cons first taken => exact ⟨first, last, rfl, ends, by rw [Ahead.here, split]; rfl⟩

theorem span_of_readImport {i : Import} (read : readImport a = .ok (i, b)) :
    i.span = a.index.span a.here (lastStop a b) := by
  rcases readImport_cases read with ⟨_, _, _, _, _, _, rfl⟩ | ⟨_, _, _, _, _, _, _, _, _, rfl⟩ <;> rfl

theorem readImport_tokens {token : Token} {i : Import} (next : a.token? = some token)
    (read : readImport a = .ok (i, b)) : ∃ taken, a.lexemes = taken ++ b.lexemes ∧ i.span.Covers a.index taken := by
  obtain ⟨_, taken, split, _⟩ := (Ahead.Passes.skip next).trans (readImport_passes read)
  have shorter := Nat.lt_of_le_of_lt (readImport_passes read).length_le (Ahead.length_skip next)
  have some : taken ≠ [] := fun none => by simp [split, none] at shorter
  obtain ⟨last, ends⟩ := Option.ne_none_iff_exists'.mp (mt List.getLast?_eq_none_iff.mp some)
  have stop : lastStop a b = last.stop := by
    have between : a.lexemes.take (a.lexemes.length - b.lexemes.length) = taken := by simp [split]
    rw [lastStop, between, ends]
    rfl
  refine ⟨taken, split, ?_⟩
  rw [span_of_readImport read, stop]
  exact Ahead.covers_between split ends

theorem readField_tokens {field : Field} (read : readField a = .ok (field, b)) :
    ∃ taken, a.lexemes = taken ++ b.lexemes ∧ field.span.Covers a.index taken := by
  obtain ⟨⟨name, c⟩, readName, rest⟩ := bind_eq_ok.mp read
  obtain ⟨⟨_, d⟩, readEquals, rest⟩ := bind_eq_ok.mp rest
  obtain ⟨⟨value, e⟩, readValue, done⟩ := bind_eq_ok.mp rest
  cases done
  obtain ⟨_, taken, split, _⟩ := (readIdentifier_passes readName).trans (readToken_passes readEquals)
  obtain ⟨⟨token, next, _⟩, rfl⟩ := readFieldValue_eq_ok_iff.mp readValue
  obtain ⟨l, last, stop⟩ := Ahead.exists_lexeme next
  have whole : a.lexemes = taken ++ [l] ++ d.skip.lexemes := by rw [split, last, List.append_assoc]; rfl
  refine ⟨taken ++ [l], whole, ?_⟩
  dsimp only
  rw [stop]
  exact Ahead.covers_between whole List.getLast?_concat

/-- A block is read from the tokens of its header, of its items and a last one. -/
theorem Item.takes_block {c : Ahead} {token : Token} {header : Header} {items : List Item} {inner : List Lexeme}
    {closing : Lexeme} (next : a.token? = some token) (passes : a.skip.Passes c [])
    (split : c.lexemes = inner ++ closing :: b.lexemes) (takes : Item.listTakes c.index items inner) :
    ∃ taken, a.lexemes = taken ++ b.lexemes ∧
      (Item.block { header with span := a.index.span a.here closing.stop } items).Takes a.index taken := by
  obtain ⟨l, first, _⟩ := Ahead.exists_lexeme next
  obtain ⟨index, opening, behind, _⟩ := passes
  rw [show c.index = a.index from index] at takes
  have whole : a.lexemes = l :: opening ++ (inner ++ [closing]) ++ b.lexemes := by
    simp [first, behind, split]
  refine ⟨_, whole, ?_⟩
  rw [Item.Takes]
  refine ⟨Ahead.covers_between whole ?_, l :: opening, inner, [closing], rfl, List.cons_ne_nil _ _,
    List.cons_ne_nil _ _, takes⟩
  rw [← List.append_assoc, List.getLast?_concat]

theorem readItems_tokens {kind : NodeKind} {name : String} {fuel : Nat} {before items : List Item} {stop : Nat}
    (read : readItems kind name fuel before a = .ok ((items, stop), b)) :
    ∃ inside inner closing, items = before.reverse ++ inside ∧ a.lexemes = inner ++ closing :: b.lexemes ∧
      stop = closing.stop ∧ Item.listTakes a.index inside inner := by
  induction fuel generalizing kind name before items stop a b with
  | zero => cases read
  | succ fuel ih =>
    have step : ∀ {i : Item} {c : Ahead} {own : List Lexeme}, c.index = a.index → a.lexemes = own ++ c.lexemes →
        i.Takes a.index own → readItems kind name fuel (i :: before) c = .ok ((items, stop), b) →
        ∃ inside inner closing, items = before.reverse ++ inside ∧ a.lexemes = inner ++ closing :: b.lexemes ∧
          stop = closing.stop ∧ Item.listTakes a.index inside inner := by
      intro i c own index split takes rest
      obtain ⟨inside, inner, closing, rfl, behind, ends, more⟩ := ih rest
      rw [index] at more
      refine ⟨i :: inside, own ++ inner, closing, by simp, by rw [split, behind, List.append_assoc], ends, ?_⟩
      rw [Item.listTakes]
      exact ⟨own, inner, rfl, takes, more⟩
    rcases readItems_cases read with ⟨next, rfl, rfl, rfl⟩ | ⟨_, field, c, _, readFirst, _, rest⟩ |
      ⟨inner, header, others, _, c, d, next, _, readFirst, readInner, _, rest⟩
    · obtain ⟨l, split, stop⟩ := Ahead.exists_lexeme next
      refine ⟨[], [], l, (List.append_nil _).symm, split, stop, ?_⟩
      rw [Item.listTakes]
    · obtain ⟨own, split, covers⟩ := readField_tokens readFirst
      exact step (readField_passes readFirst).1 split (by rwa [Item.Takes]) rest
    · obtain ⟨_, tokens, closing, rfl, behind, rfl, takes⟩ := ih readInner
      obtain ⟨own, split, takesOwn⟩ := Item.takes_block next (readHeader_passes readFirst) behind takes
      obtain ⟨_, _, index, _⟩ := readItems_passes readInner
      exact step (index.trans (readHeader_passes readFirst).1) split takesOwn rest

theorem readBlock_tokens {kind : NodeKind} {block : Block} (next : a.token? = some (.block kind))
    (read : readBlock kind a = .ok (block, b)) :
    ∃ taken, a.lexemes = taken ++ b.lexemes ∧ (Item.block block.header block.items).Takes a.index taken := by
  obtain ⟨⟨header, c⟩, readFirst, rest⟩ := bind_eq_ok.mp read
  obtain ⟨⟨⟨items, stop⟩, d⟩, readInner, done⟩ := bind_eq_ok.mp rest
  cases done
  obtain ⟨_, tokens, closing, rfl, behind, rfl, takes⟩ := readItems_tokens readInner
  exact Item.takes_block next (readHeader_passes readFirst) behind takes

end

/-- The import was read from the tokens, and is read from them alone. -/
structure Import.Takes (index : LineIndex) (i : Import) (taken : List Lexeme) : Prop where
  covers : i.span.Covers index taken
  alone : SpellsAlone (taken.map Lexeme.token) { imports := [i] }

/-- The top-level block was read from the tokens, and is read from them alone. -/
structure Block.Takes (index : LineIndex) (b : Block) (taken : List Lexeme) : Prop where
  item : (Item.block b.header b.items).Takes index taken
  alone : SpellsAlone (taken.map Lexeme.token) { blocks := [b] }

/-- The declarations of the source were read from the tokens, one behind the other. -/
inductive Source.Takes (index : LineIndex) : Source → List Lexeme → Prop
  | nil : Takes index {} []
  | ofImport {i : Import} {rest : Source} {own others : List Lexeme} (first : i.Takes index own)
      (later : Takes index rest others) : Takes index { rest with imports := i :: rest.imports } (own ++ others)
  | ofBlock {b : Block} {rest : Source} {own others : List Lexeme} (first : b.Takes index own)
      (later : Takes index rest others) : Takes index { rest with blocks := b :: rest.blocks } (own ++ others)

theorem readDeclarations_tokens {fuel : Nat} {bound : List String} {a : Ahead} {s : Source} (distinct : bound.Nodup)
    (enough : a.lexemes.length < fuel) (read : readDeclarations fuel bound a = .ok s) : s.Takes a.index a.lexemes := by
  induction fuel generalizing bound a s with
  | zero => exact absurd enough (Nat.not_lt_zero _)
  | succ fuel ih =>
    rcases readDeclarations_cases read with ⟨none, rfl⟩ |
      ⟨i, b, bound', rest, opens, readFirst, bind, readRest, rfl⟩ |
      ⟨kind, block, b, bound', rest, next, outermost, readFirst, bind, readRest, rfl⟩
    · rw [List.head?_eq_none_iff.mp (Option.map_eq_none_iff.mp none)]
      exact .nil
    · obtain ⟨rfl, distinct⟩ := bindNames_sound bind distinct
      obtain ⟨token, next⟩ : ∃ token, a.token? = some token := opens.elim (⟨_, ·⟩) (⟨_, ·⟩)
      have fewer := Nat.lt_of_le_of_lt (readImport_passes readFirst).length_le (Ahead.length_skip next)
      obtain ⟨taken, split, covers⟩ := readImport_tokens next readFirst
      have later := ih distinct (by omega) readRest
      rw [show b.index = a.index from (readImport_passes readFirst).1] at later
      have names : i.localNames.Nodup := (List.reverse_perm _).nodup_iff.mp (List.nodup_append.mp distinct).1
      rw [split]
      exact .ofImport ⟨covers, readImport_alone opens readFirst split names⟩ later
    · obtain ⟨rfl, distinct⟩ := bindNames_sound bind distinct
      have fewer := Nat.lt_of_le_of_lt (readBlock_passes readFirst).length_le (Ahead.length_skip next)
      obtain ⟨taken, split, takes⟩ := readBlock_tokens next readFirst
      have later := ih distinct (by omega) readRest
      rw [show b.index = a.index from (readBlock_passes readFirst).1] at later
      rw [split]
      exact .ofBlock ⟨takes, readBlock_alone next outermost readFirst split⟩ later

namespace Source.Takes

variable {s : Source} {lexemes : List Lexeme}

theorem exists_import (takes : s.Takes index lexemes) {i : Import} (member : i ∈ s.imports) :
    ∃ taken, taken <:+: lexemes ∧ i.Takes index taken := by
  induction takes with
  | nil => cases member
  | @ofImport j rest own others first later ih =>
    rcases List.mem_cons.mp member with rfl | member
    · exact ⟨own, (List.prefix_append own others).isInfix, first⟩
    · obtain ⟨taken, within, takes⟩ := ih member
      exact ⟨taken, within.trans (List.suffix_append own others).isInfix, takes⟩
  | @ofBlock b rest own others first later ih =>
    obtain ⟨taken, within, takes⟩ := ih member
    exact ⟨taken, within.trans (List.suffix_append own others).isInfix, takes⟩

theorem exists_block (takes : s.Takes index lexemes) {b : Block} (member : b ∈ s.blocks) :
    ∃ taken, taken <:+: lexemes ∧ b.Takes index taken := by
  induction takes with
  | nil => cases member
  | @ofImport i rest own others first later ih =>
    obtain ⟨taken, within, takes⟩ := ih member
    exact ⟨taken, within.trans (List.suffix_append own others).isInfix, takes⟩
  | @ofBlock c rest own others first later ih =>
    rcases List.mem_cons.mp member with rfl | member
    · exact ⟨own, (List.prefix_append own others).isInfix, first⟩
    · obtain ⟨taken, within, takes⟩ := ih member
      exact ⟨taken, within.trans (List.suffix_append own others).isInfix, takes⟩

/-- Every span at top level covers some of the tokens. -/
theorem exists_covered (takes : s.Takes index lexemes) {span : Span} (member : span ∈ s.topSpans) :
    ∃ taken, taken <:+: lexemes ∧ span.Covers index taken := by
  rcases List.mem_append.mp member with imported | declared
  · obtain ⟨i, inSource, rfl⟩ := List.mem_map.mp imported
    obtain ⟨taken, within, own⟩ := takes.exists_import inSource
    exact ⟨taken, within, own.covers⟩
  · obtain ⟨b, inSource, rfl⟩ := List.mem_map.mp declared
    obtain ⟨taken, within, own⟩ := takes.exists_block inSource
    exact ⟨taken, within, own.item.covers⟩

theorem apart (takes : s.Takes index lexemes) (inOrder : InOrder lexemes) : s.topSpans.Pairwise Span.IsApart := by
  -- what is read first is apart from all that is read behind it
  have step : ∀ {span : Span} {rest : Source} {own others : List Lexeme}, span.Covers index own →
      rest.Takes index others → InOrder (own ++ others) → (InOrder others → rest.topSpans.Pairwise Span.IsApart) →
      (span :: rest.topSpans).Pairwise Span.IsApart := by
    intro span rest own others covers later inOrder ih
    refine List.pairwise_cons.mpr ⟨fun span' member => ?_, ih (inOrder.sublist (List.sublist_append_right own others))⟩
    obtain ⟨taken, within, covers'⟩ := later.exists_covered member
    exact .inl (covers.stop_le covers' (inOrder.sublist (List.Sublist.append_left within.sublist own)))
  induction takes with
  | nil => exact .nil
  | ofImport first later ih => exact step first.covers later inOrder ih
  | ofBlock first later ih =>
    exact (step first.item.covers later inOrder ih).perm List.perm_middle.symm fun apart => apart.symm

/-- Every block was read from some of the tokens. -/
theorem exists_placed (takes : s.Takes index lexemes) {p : PlacedBlock} (member : p ∈ s.outline) :
    ∃ taken, taken <:+: lexemes ∧ (Item.block p.block.header p.block.items).Takes index taken := by
  refine Source.outline_induction
    (motive := fun p => ∃ taken, taken <:+: lexemes ∧ (Item.block p.block.header p.block.items).Takes index taken)
    (fun b top => ?_) ?_ p member
  · obtain ⟨taken, within, own⟩ := takes.exists_block top
    exact ⟨taken, within, own.item⟩
  · rintro p _ ⟨taken, within, takes⟩ q inner
    obtain ⟨own, inside, takesOwn⟩ := takes.exists_inner inner
    exact ⟨own, inside.trans within, takesOwn⟩

/-- Every span covers some of the tokens. -/
theorem exists_spanned (takes : s.Takes index lexemes) {span : Span} (member : span ∈ s.spans) :
    ∃ taken, taken <:+: lexemes ∧ span.Covers index taken := by
  rcases List.mem_append.mp member with imported | inBlock
  · exact takes.exists_covered (List.mem_append_left _ imported)
  · obtain ⟨p, placed, own⟩ := List.mem_flatMap.mp inBlock
    obtain ⟨taken, within, takesBlock⟩ := takes.exists_placed placed
    rcases List.mem_cons.mp own with rfl | item
    · exact ⟨taken, within, takesBlock.covers⟩
    · obtain ⟨i, inside, rfl⟩ := List.mem_map.mp item
      obtain ⟨part, within', takesItem⟩ := takesBlock.exists_item inside
      exact ⟨part, within'.trans within, takesItem.covers⟩

end Source.Takes

namespace Source

theorem takes_of_parse {text : String} {s : Source} (parsed : parse text = .ok s) :
    (Lexemes.ofText text).fault = none ∧ s.Takes (.ofText text) (Lexemes.ofText text).lexemes := by
  unfold parse at parsed
  dsimp only at parsed
  split at parsed
  · cases parsed
  next noFault => exact ⟨noFault, readDeclarations_tokens List.nodup_nil (Nat.lt_succ_self _) parsed⟩

/-- What a span covers is accepted alone, where all that spells its tokens is. -/
theorem exists_alone {text : String} (noFault : (Lexemes.ofText text).fault = none) {span : Span} {taken : List Lexeme}
    {own : Source} (covers : span.Covers (.ofText text) taken) (within : taken <:+: (Lexemes.ofText text).lexemes)
    (spells : SpellsAlone (taken.map Lexeme.token) own) :
    ∃ slice alone, span.IsSlice text slice ∧ parse slice = .ok alone ∧ alone.eraseSpans = own.eraseSpans := by
  obtain ⟨slice, isSlice, spelled⟩ := covers.exists_slice noFault within
  obtain ⟨alone, parsed, same⟩ := spells slice spelled
  exact ⟨slice, alone, isSlice, parsed, same⟩

/-- The spans of an accepted source are exact, if its text is shorter than 2 ^ 32 bytes. -/
theorem hasExactSpans {text : String} {s : Source} (parsed : parse text = .ok s)
    (short : text.utf8ByteSize < UInt32.size) : s.HasExactSpans text := by
  obtain ⟨noFault, takes⟩ := takes_of_parse parsed
  have inOrder : InOrder (Lexemes.ofText text).lexemes := Lexemes.inOrder_read 0 text.toList
  constructor
  case imports =>
    intro i member
    obtain ⟨taken, within, own⟩ := takes.exists_import member
    exact exists_alone noFault own.covers within own.alone
  case blocks =>
    intro b member
    obtain ⟨taken, within, own⟩ := takes.exists_block member
    exact exists_alone noFault own.item.covers within own.alone
  case nonempty =>
    intro span member
    obtain ⟨taken, within, covers⟩ := takes.exists_spanned member
    exact covers.start_lt (inOrder.sublist within.sublist)
  case apart => exact takes.apart inOrder
  case inside =>
    intro p member i inside
    obtain ⟨taken, within, takesBlock⟩ := takes.exists_placed member
    exact takesBlock.inside (inOrder.sublist within.sublist) inside
  case ordered =>
    intro p member
    obtain ⟨taken, within, takesBlock⟩ := takes.exists_placed member
    obtain ⟨inner, inside, takesItems⟩ := takesBlock.exists_items
    exact takesItems.ordered (inOrder.sublist (inside.trans within).sublist)
  case placed =>
    intro span member
    obtain ⟨taken, within, covers⟩ := takes.exists_spanned member
    exact covers.isPlaced short noFault within

/-- An import and a block behind a comment, with letters that take two bytes. -/
def umlautText : String := "# \u00e9\nfrom .a import B\ndeduc T \x7b asrt A \x7b en = \"\u00fc\" \x7d \x7d"

theorem hasExactSpans_umlautText : ∃ s, parse umlautText = .ok s ∧
    s.topSpans = [⟨5, 21, 2, 1⟩, ⟨22, 54, 3, 1⟩] ∧ s.HasExactSpans umlautText := by
  have top : (parse umlautText).toOption.map topSpans = some [⟨5, 21, 2, 1⟩, ⟨22, 54, 3, 1⟩] := by decide +kernel
  cases parsed : parse umlautText with
  | error e =>
    rw [parsed] at top
    cases top
  | ok s =>
    rw [parsed] at top
    exact ⟨s, rfl, Option.some.inj top, hasExactSpans parsed (by decide)⟩

end Source

end Deductions
