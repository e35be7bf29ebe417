import Deductions.Proofs.Source.Accepted
import Deductions.Proofs.Source.Canonical
import Deductions.Proofs.Source.Recovered

namespace Deductions

theorem fieldNames_eraseSpansList (items : List Item) :
    fieldNames (Item.eraseSpansList items) = fieldNames items := by
  induction items with
  | nil => rfl
  | cons i items ih =>
    cases i <;>
      simpa [Item.eraseSpansList, Item.eraseSpans, fieldNames, Item.field?] using ih

theorem blockNames_eraseSpansList (items : List Item) :
    blockNames (Item.eraseSpansList items) = blockNames items := by
  induction items with
  | nil => rfl
  | cons i items ih =>
    cases i <;>
      simpa [Item.eraseSpansList, Item.eraseSpans, blockNames, Item.block?] using ih

theorem hasDistinctNames_eraseSpansList {items : List Item} :
    HasDistinctNames (Item.eraseSpansList items) ↔ HasDistinctNames items := by
  rw [HasDistinctNames, HasDistinctNames, fieldNames_eraseSpansList, blockNames_eraseSpansList]

theorem Header.isWellFormed_span {header : Header} (span : Span) :
    { header with span := span }.IsWellFormed ↔ header.IsWellFormed := Iff.rfl

mutual

theorem Item.isWellFormed_eraseSpans (outer : NodeKind) :
    ∀ i : Item, i.eraseSpans.IsWellFormed outer ↔ i.IsWellFormed outer
  | .field _ => Iff.rfl
  | .block header items => by
    simp only [Item.eraseSpans, Item.IsWellFormed, Header.isWellFormed_span,
      hasDistinctNames_eraseSpansList]
    rw [Item.areWellFormed_eraseSpansList header.kind items]

theorem Item.areWellFormed_eraseSpansList (outer : NodeKind) : ∀ items : List Item,
    Item.AreWellFormed outer (Item.eraseSpansList items) ↔ Item.AreWellFormed outer items
  | [] => Iff.rfl
  | i :: items => by
    simp only [Item.eraseSpansList, Item.AreWellFormed]
    rw [Item.isWellFormed_eraseSpans outer i, Item.areWellFormed_eraseSpansList outer items]

end

theorem Block.isWellFormed_eraseSpans {b : Block} : b.eraseSpans.IsWellFormed ↔ b.IsWellFormed := by
  constructor
  · rintro ⟨kind, header, distinct, items⟩
    exact ⟨kind, header, hasDistinctNames_eraseSpansList.mp distinct,
      (Item.areWellFormed_eraseSpansList b.header.kind b.items).mp items⟩
  · rintro ⟨kind, header, distinct, items⟩
    exact ⟨kind, header, hasDistinctNames_eraseSpansList.mpr distinct,
      (Item.areWellFormed_eraseSpansList b.header.kind b.items).mpr items⟩

theorem Source.boundNames_eraseSpans (s : Source) : s.eraseSpans.boundNames = s.boundNames := by
  have imports : s.eraseSpans.imports.flatMap Import.localNames = s.imports.flatMap Import.localNames :=
    List.flatMap_map ..
  have blocks : s.eraseSpans.blocks.map (fun b => b.header.name) =
      s.blocks.map fun b => b.header.name := List.map_map ..
  rw [Source.boundNames, Source.boundNames, imports, blocks]

theorem Source.isWellFormed_eraseSpans {s : Source} :
    s.eraseSpans.IsWellFormed ↔ s.IsWellFormed := by
  have imports : (∀ i ∈ s.eraseSpans.imports, i.IsWellFormed) ↔ ∀ i ∈ s.imports, i.IsWellFormed :=
    List.forall_mem_map
  have blocks : (∀ b ∈ s.eraseSpans.blocks, b.IsWellFormed) ↔ ∀ b ∈ s.blocks, b.IsWellFormed :=
    List.forall_mem_map.trans (forall₂_congr fun b _ => Block.isWellFormed_eraseSpans)
  constructor
  · intro erased
    exact ⟨imports.mp erased.imports, blocks.mp erased.blocks,
      s.boundNames_eraseSpans ▸ erased.distinct⟩
  · intro wellFormed
    exact ⟨imports.mpr wellFormed.imports, blocks.mpr wellFormed.blocks,
      s.boundNames_eraseSpans.symm ▸ wellFormed.distinct⟩

/-- The reader accepts exactly its language: places apart, a tree is read from some text if and only
if it is well-formed. -/
theorem Source.exists_parse_iff (t : Source) :
    (∃ text s, Source.parse text = .ok s ∧ s.eraseSpans = t.eraseSpans) ↔ t.IsWellFormed := by
  constructor
  · rintro ⟨text, s, parsed, same⟩
    have wellFormed : s.eraseSpans.IsWellFormed :=
      Source.isWellFormed_eraseSpans.mpr (Source.isWellFormed_of_parse parsed)
    rw [same] at wellFormed
    exact Source.isWellFormed_eraseSpans.mp wellFormed
  · intro wellFormed
    obtain ⟨s, parsed, same⟩ := Source.parse_of_spells wellFormed (Source.spells_text wellFormed)
    exact ⟨t.text, s, parsed, same⟩

end Deductions
