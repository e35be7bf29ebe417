import Deductions.Proofs.Source.Accepted
import Deductions.Proofs.Source.Canonical
import Deductions.Proofs.Source.Recovered

namespace Deductions

mutual

theorem Item.written_eraseSpans (depth : Nat) : ∀ i : Item, i.eraseSpans.written depth = i.written depth
  | .field _ => by simp only [Item.eraseSpans, Item.written]
  | .block _ [] => by
    simp only [Item.eraseSpans, Item.eraseSpansList, Item.written, Header.written]
  | .block _ (first :: rest) => by
    simp only [Item.eraseSpans, Item.eraseSpansList, Item.written, Header.written]
    rw [Item.written_eraseSpans (depth + 1) first, Item.writtenList_eraseSpansList (depth + 1) rest]

theorem Item.writtenList_eraseSpansList (depth : Nat) : ∀ items : List Item,
    Item.writtenList depth (Item.eraseSpansList items) = Item.writtenList depth items
  | [] => rfl
  | i :: items => by
    rw [Item.eraseSpansList, Item.writtenList, Item.writtenList, Item.written_eraseSpans depth i,
      Item.writtenList_eraseSpansList depth items]

end

theorem Block.written_eraseSpans (b : Block) : b.eraseSpans.written = b.written := by
  have same := Item.written_eraseSpans 0 (.block b.header b.items)
  rwa [Item.eraseSpans] at same

/-- The canonical text does not tell where anything stood. -/
theorem Source.text_eraseSpans (s : Source) : s.eraseSpans.text = s.text := by
  have imports : s.eraseSpans.imports.map Import.written = s.imports.map Import.written := by
    rw [Source.eraseSpans, List.map_map]
    rfl
  have blocks : s.eraseSpans.blocks.map Block.written = s.blocks.map Block.written := by
    rw [Source.eraseSpans, List.map_map]
    exact List.map_congr_left fun b _ => Block.written_eraseSpans b
  have noImports : s.eraseSpans.imports.isEmpty = s.imports.isEmpty := List.isEmpty_map ..
  have noBlocks : s.eraseSpans.blocks.isEmpty = s.blocks.isEmpty := List.isEmpty_map ..
  rw [Source.text, Source.text, imports, blocks, noImports, noBlocks]

/-- The canonical text of an accepted source is read as the same source, spans apart, and is its own
canonical text. -/
theorem Source.parse_text {text : String} {s : Source} (parsed : Source.parse text = .ok s) :
    ∃ s', Source.parse s.text = .ok s' ∧ s'.eraseSpans = s.eraseSpans ∧ s'.text = s.text := by
  have wellFormed := Source.isWellFormed_of_parse parsed
  obtain ⟨s', again, same⟩ := Source.parse_of_spells wellFormed (Source.spells_text wellFormed)
  refine ⟨s', again, same, ?_⟩
  rw [← Source.text_eraseSpans, same, Source.text_eraseSpans]

/-- An import under two names, a block in a block, a value with escapes and a raw one. -/
def shortSource : String :=
  "from .logic import Order as o, Chain\ndeduc D of o.T.C, Chain \x7b asrt A \x7b " ++
    "en = \"say \\\"so\\\"\" \x7d \x7d anno N on D \x7b en = @@@a \"b\" @ c@@@ \x7d"

theorem Source.parse_text_shortSource : ∃ s s' : Source, Source.parse shortSource = .ok s ∧
    Source.parse s.text = .ok s' ∧ s'.eraseSpans = s.eraseSpans ∧ s'.text = s.text := by
  cases parsed : Source.parse shortSource with
  | error e =>
    have accepted : (Source.parse shortSource).toOption.isSome = true := by decide +kernel
    rw [parsed] at accepted
    cases accepted
  | ok s =>
    obtain ⟨s', again⟩ := Source.parse_text parsed
    exact ⟨s, s', rfl, again⟩

end Deductions
