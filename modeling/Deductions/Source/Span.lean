namespace Deductions

/-- The bytes from `start` up to `stop`, with the line and the column of the first. Lines and columns are counted
from one, columns in bytes. -/
structure Span where
  start : Nat := 0
  stop : Nat := 0
  line : UInt32 := 0
  column : UInt32 := 0
deriving DecidableEq

/-- The place after `text`, which starts at the place `here`, in bytes of UTF-8. -/
def offsetAfter (here : Nat) (text : List Char) : Nat := text.foldl (fun place c => place + c.utf8Size) here

/-- The first place from `low` up to `high` whose element does not satisfy `p`, or else `high`. The elements that
satisfy it come before the others. -/
def partitionPoint (a : Array Nat) (p : Nat → Bool) (low high : Nat) (inside : high ≤ a.size) : Nat :=
  if some : low < high then
    have within : low + (high - low) / 2 < a.size := by omega
    if p a[low + (high - low) / 2] then partitionPoint a p (low + (high - low) / 2 + 1) high inside
    else partitionPoint a p low (low + (high - low) / 2) (Nat.le_of_lt within)
  else low
termination_by high - low

theorem partitionPoint_le {a : Array Nat} {p : Nat → Bool} {low high : Nat} {inside : high ≤ a.size}
    (ordered : low ≤ high) : partitionPoint a p low high inside ≤ high := by
  fun_induction partitionPoint a p low high inside with
  | case1 low high _ some _ _ ih => exact ih (by omega)
  | case2 low high _ some _ _ ih => exact Nat.le_trans (ih (by omega)) (by omega)
  | case3 => exact ordered

/-- The places where the lines of a text start, which begins at the place `here`, after those that are known. -/
def lineStarts (starts : Array Nat) (here : Nat) : List Char → Array Nat
  | [] => starts
  | c :: text => lineStarts (if c = '\n' then starts.push (here + 1) else starts) (here + c.utf8Size) text

theorem size_le_lineStarts (starts : Array Nat) (here : Nat) (text : List Char) :
    starts.size ≤ (lineStarts starts here text).size := by
  induction text generalizing starts here with
  | nil => exact Nat.le_refl _
  | cons c text ih =>
    refine Nat.le_trans ?_ (ih _ _)
    split
    · rw [Array.size_push]
      exact Nat.le_succ _
    · exact Nat.le_refl _

/-- The places where the lines of a text start, in their order. -/
structure LineIndex where
  starts : Array Nat
  nonempty : 0 < starts.size

namespace LineIndex

def ofText (text : String) : LineIndex := ⟨lineStarts #[0] 0 text.toList, size_le_lineStarts #[0] 0 text.toList⟩

/-- The line of a place, counted from zero. -/
def line (index : LineIndex) (offset : Nat) : Nat :=
  max (partitionPoint index.starts (fun start => start ≤ offset) 0 index.starts.size (Nat.le_refl _)) 1 - 1

theorem line_lt (index : LineIndex) (offset : Nat) : index.line offset < index.starts.size := by
  have point : partitionPoint index.starts (fun start => start ≤ offset) 0 index.starts.size (Nat.le_refl _) ≤
    index.starts.size := partitionPoint_le (Nat.zero_le _)
  have some := index.nonempty
  rw [line]
  omega

/-- The line and the column of a place, as numbers of 32 bits. -/
def lineColumn (index : LineIndex) (offset : Nat) : UInt32 × UInt32 :=
  have within := index.line_lt offset
  (.ofNat (index.line offset) + 1, .ofNat (offset - index.starts[index.line offset]) + 1)

def span (index : LineIndex) (start stop : Nat) : Span where
  start := start
  stop := stop
  line := (index.lineColumn start).1
  column := (index.lineColumn start).2

end LineIndex

end Deductions
