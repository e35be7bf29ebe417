import Deductions.Proofs.Path
import Deductions.Proofs.Source.Grammar

namespace Deductions

/-- A block with the blocks around it, innermost first. -/
structure PlacedBlock where
  block : Block
  around : List Block

mutual

/-- The blocks of an item that stands in the blocks `around`: itself and all inside it. -/
def Item.outline (around : List Block) : Item → List PlacedBlock
  | .field _ => []
  | .block header items => ⟨⟨header, items⟩, around⟩ :: Item.listOutline (⟨header, items⟩ :: around) items

def Item.listOutline (around : List Block) : List Item → List PlacedBlock
  | [] => []
  | i :: items => i.outline around ++ Item.listOutline around items

end

/-- The blocks of a list of items, without those inside them. -/
def blocksIn (items : List Item) : List Block := items.filterMap Item.block?

/-- The path of the innermost of blocks that stand in each other, or of the module where there are none. -/
def scopeOf (module : Path) : List Block → Path
  | [] => module
  | b :: around => (scopeOf module around).child b.header.name

/-- The node that blocks stand in, if it is not the module. -/
def placeOf (module : Path) : List Block → Option Path
  | [] => none
  | b :: around => some (scopeOf module (b :: around))

/-- The blocks of a list, each with those around it, from the inside out. -/
def outersOf : List Block → List PlacedBlock
  | [] => []
  | b :: around => ⟨b, around⟩ :: outersOf around

namespace PlacedBlock

/-- The path of the module, then the names of the blocks around, then the name of the block. -/
def path (module : Path) (p : PlacedBlock) : Path := (scopeOf module p.around).child p.block.header.name

/-- The blocks around, innermost first. -/
def outers (p : PlacedBlock) : List PlacedBlock := outersOf p.around

/-- The blocks directly inside, in the order in which they are written. -/
def inner (p : PlacedBlock) : List PlacedBlock := p.block.inner.map fun b => ⟨b, p.block :: p.around⟩

/-- The block and all inside it. -/
def below (p : PlacedBlock) : List PlacedBlock := (Item.block p.block.header p.block.items).outline p.around

/-- The outermost of the block and those around it. -/
def outermost (p : PlacedBlock) : PlacedBlock := p.outers.getLast?.getD p

end PlacedBlock

/-- The top-level blocks of a source. -/
def Source.outermost (s : Source) : List PlacedBlock := s.blocks.map fun b => ⟨b, []⟩

/-- All blocks of a source. -/
def Source.outline (s : Source) : List PlacedBlock := s.outermost.flatMap PlacedBlock.below

@[simp] theorem getD_placeOf (module : Path) (around : List Block) :
    (placeOf module around).getD module = scopeOf module around := by
  cases around <;> rfl

theorem segments_scopeOf (module : Path) (around : List Block) : (scopeOf module around).segments =
    module.segments ++ (around.map fun b => b.header.name).reverse := by
  induction around with
  | nil => simp [scopeOf]
  | cons b around ih => simp [scopeOf, Path.child, ih]

theorem blockNames_eq (items : List Item) : blockNames items = (blocksIn items).map fun b => b.header.name := by
  rw [blocksIn, List.map_filterMap]
  rfl

theorem Item.listOutline_eq (around : List Block) (items : List Item) :
    Item.listOutline around items = (blocksIn items).flatMap fun b => PlacedBlock.below ⟨b, around⟩ := by
  induction items with
  | nil => rfl
  | cons i items ih =>
    cases i with
    | field f => exact ih
    | block header items' =>
      rw [listOutline, ih]
      rfl

namespace PlacedBlock

theorem below_eq (p : PlacedBlock) : p.below = p :: p.inner.flatMap below := by
  rw [below, Item.outline, Item.listOutline_eq, inner, List.flatMap_map]
  rfl

theorem path_mem_inner {p q : PlacedBlock} {module : Path} (member : q ∈ p.inner) :
    q.path module = (p.path module).child q.block.header.name := by
  obtain ⟨b, _, rfl⟩ := List.mem_map.mp member
  rfl

end PlacedBlock

section

variable {motive : PlacedBlock → Prop}

mutual

theorem Item.outline_induction : ∀ (i : Item) (around : List Block), (∀ b ∈ blocksIn [i], motive ⟨b, around⟩) →
    (∀ p ∈ i.outline around, motive p → ∀ q ∈ p.inner, motive q) → ∀ p ∈ i.outline around, motive p
  | .field _, _, _, _, _, member => nomatch member
  | .block header items, around, outer, step, p, member => by
    have own : motive ⟨⟨header, items⟩, around⟩ := outer _ List.mem_cons_self
    rcases List.mem_cons.mp member with rfl | inside
    · exact own
    · refine Item.listOutline_induction items (⟨header, items⟩ :: around) (fun b inner => ?_)
        (fun q member => step q (List.mem_cons_of_mem _ member)) p inside
      exact step _ List.mem_cons_self own _ (List.mem_map_of_mem inner)

theorem Item.listOutline_induction : ∀ (items : List Item) (around : List Block),
    (∀ b ∈ blocksIn items, motive ⟨b, around⟩) →
    (∀ p ∈ Item.listOutline around items, motive p → ∀ q ∈ p.inner, motive q) →
    ∀ p ∈ Item.listOutline around items, motive p
  | [], _, _, _, _, member => nomatch member
  | i :: items, around, outer, step, p, member => by
    have split : blocksIn (i :: items) = blocksIn [i] ++ blocksIn items := List.filterMap_append (l := [i])
    rw [split] at outer
    rcases List.mem_append.mp member with first | later
    · exact Item.outline_induction i around (fun b inner => outer b (List.mem_append_left _ inner))
        (fun q member => step q (List.mem_append_left _ member)) p first
    · exact Item.listOutline_induction items around (fun b inner => outer b (List.mem_append_right _ inner))
        (fun q member => step q (List.mem_append_right _ member)) p later

end

/-- What holds of a block, and of the blocks directly inside each that it holds of, holds of all blocks
inside it. -/
theorem PlacedBlock.below_induction {p : PlacedBlock} (own : motive p)
    (step : ∀ q ∈ p.below, motive q → ∀ r ∈ q.inner, motive r) : ∀ q ∈ p.below, motive q := by
  refine Item.outline_induction _ p.around (fun b member => ?_) step
  cases List.mem_singleton.mp member
  exact own

end

namespace PlacedBlock

theorem self_mem_below (p : PlacedBlock) : p ∈ p.below := by
  rw [below_eq]
  exact List.mem_cons_self

theorem below_subset {p q : PlacedBlock} (member : q ∈ p.below) : ∀ r ∈ q.below, r ∈ p.below := by
  refine below_induction (motive := fun q => ∀ r ∈ q.below, r ∈ p.below) (fun _ member => member) ?_ q member
  intro q _ inside r directly t member
  refine inside t ?_
  rw [below_eq]
  exact List.mem_cons_of_mem _ (List.mem_flatMap.mpr ⟨r, directly, member⟩)

/-- What is inside a block lies at a path inside its own. -/
theorem startsWith_of_mem_below {p q : PlacedBlock} (module : Path) (member : q ∈ p.below) :
    (q.path module).startsWith (p.path module) = true := by
  refine below_induction (motive := fun q => (q.path module).startsWith (p.path module) = true)
    (Path.startsWith_refl _) ?_ q member
  intro q _ begins r directly
  rw [path_mem_inner directly]
  exact Path.startsWith_trans (Path.startsWith_child _ _) begins

end PlacedBlock

/-- What is inside blocks has another path than they have. -/
theorem PlacedBlock.ne_scopeOf {b : Block} {around : List Block} {p : PlacedBlock} (module : Path)
    (member : p ∈ below ⟨b, around⟩) : p.path module ≠ scopeOf module around := by
  intro same
  have longer := Path.length_le_of_startsWith (startsWith_of_mem_below module member)
  rw [same, path, Path.length_child] at longer
  exact Nat.not_succ_le_self _ longer

theorem eq_of_placeOf {module path : Path} {around : List Block} (place : placeOf module around = some path) :
    path = scopeOf module around := by
  rw [← getD_placeOf, place]
  rfl

theorem startsWith_scopeOf (module : Path) (around : List Block) :
    (scopeOf module around).startsWith module = true :=
  Path.startsWith_iff.mpr ⟨_, (segments_scopeOf module around).symm⟩

/-- Every block lies in the module. -/
theorem PlacedBlock.isSome_strip?_path (module : Path) (p : PlacedBlock) :
    ((p.path module).strip? module).isSome = true := by
  have begins := startsWith_scopeOf module p.around
  refine Path.isSome_strip?_iff.mpr ⟨Path.startsWith_trans (Path.startsWith_child _ _) begins, ?_⟩
  rw [path, Path.length_child]
  exact Nat.lt_succ_of_le (Path.length_le_of_startsWith begins)

namespace PlacedBlock

theorem outermost_cons (b outer : Block) (around : List Block) :
    outermost ⟨b, outer :: around⟩ = outermost ⟨outer, around⟩ := by
  rw [outermost, outers, outersOf, List.getLast?_cons]
  rfl

theorem around_outermost (p : PlacedBlock) : p.outermost.around = [] := by
  obtain ⟨b, around⟩ := p
  induction around generalizing b with
  | nil => rfl
  | cons outer around ih => exact (congrArg PlacedBlock.around (outermost_cons b outer around)).trans (ih outer)

/-- The name of the outermost block follows the module. -/
theorem exists_segments_path (module : Path) (p : PlacedBlock) :
    ∃ inside, (p.path module).segments = module.segments ++ p.outermost.block.header.name :: inside := by
  obtain ⟨b, around⟩ := p
  induction around generalizing b with
  | nil => exact ⟨[], rfl⟩
  | cons outer around ih =>
    obtain ⟨inside, segments⟩ := ih outer
    refine ⟨inside ++ [b.header.name], ?_⟩
    have path : (path module ⟨b, outer :: around⟩).segments =
      (path module ⟨outer, around⟩).segments ++ [b.header.name] := rfl
    rw [path, segments, outermost_cons, List.append_assoc, List.cons_append]

end PlacedBlock

namespace Source

variable {s : Source}

theorem exists_outermost {p : PlacedBlock} (member : p ∈ s.outline) : ∃ b ∈ s.blocks, p ∈ PlacedBlock.below ⟨b, []⟩ := by
  obtain ⟨q, outer, inside⟩ := List.mem_flatMap.mp member
  obtain ⟨b, inSource, rfl⟩ := List.mem_map.mp outer
  exact ⟨b, inSource, inside⟩

/-- What holds of top-level blocks, and of the blocks directly inside each that it holds of, holds of all
blocks. -/
theorem outline_induction {motive : PlacedBlock → Prop} (top : ∀ b ∈ s.blocks, motive ⟨b, []⟩)
    (step : ∀ p ∈ s.outline, motive p → ∀ q ∈ p.inner, motive q) : ∀ p ∈ s.outline, motive p := by
  intro p member
  obtain ⟨b, inSource, inside⟩ := exists_outermost member
  refine PlacedBlock.below_induction (top b inSource) (fun q below => step q ?_) p inside
  exact List.mem_flatMap.mpr ⟨_, List.mem_map_of_mem inSource, below⟩

theorem mem_outline_of_inner {p q : PlacedBlock} (member : p ∈ s.outline) (inner : q ∈ p.inner) :
    q ∈ s.outline := by
  obtain ⟨o, outer, inside⟩ := List.mem_flatMap.mp member
  refine List.mem_flatMap.mpr ⟨o, outer, PlacedBlock.below_subset inside q ?_⟩
  rw [PlacedBlock.below_eq]
  exact List.mem_cons_of_mem _ (List.mem_flatMap.mpr ⟨q, inner, q.self_mem_below⟩)

/-- The blocks around a block of the source are blocks of the source. -/
theorem mem_outline_of_outer {p q : PlacedBlock} (member : p ∈ s.outline) (outer : q ∈ p.outers) :
    q ∈ s.outline := by
  refine outline_induction (motive := fun p => ∀ q ∈ p.outers, q ∈ s.outline)
    (fun _ _ _ none => nomatch none) ?_ p member q outer
  intro p member outers q inner r outer
  obtain ⟨b, _, rfl⟩ := List.mem_map.mp inner
  rcases List.mem_cons.mp outer with rfl | outer
  · exact member
  · exact outers r outer

theorem outermost_mem_outline {p : PlacedBlock} (member : p ∈ s.outline) : p.outermost ∈ s.outline := by
  rw [PlacedBlock.outermost]
  cases last : p.outers.getLast? with
  | none => exact member
  | some outer => exact mem_outline_of_outer member (List.mem_of_getLast? last)

end Source

end Deductions
