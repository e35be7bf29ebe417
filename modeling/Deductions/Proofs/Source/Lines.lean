import Deductions.Source.Span
import Mathlib.Data.List.DropRight
import Mathlib.Data.List.Induction

namespace Deductions

/-- What follows the last line end of a text. -/
def lastLine (text : String) : String := String.ofList (text.toList.rtakeWhile (· != '\n'))

theorem offsetAfter_append (here : Nat) (text text' : List Char) :
    offsetAfter here (text ++ text') = offsetAfter (offsetAfter here text) text' :=
  List.foldl_append

theorem offsetAfter_eq (here : Nat) (text : List Char) :
    offsetAfter here text = here + (String.ofList text).utf8ByteSize := by
  induction text generalizing here with
  | nil => rfl
  | cons c text ih =>
    have later := ih (here + c.utf8Size)
    rw [String.ofList_cons, String.utf8ByteSize_append, String.utf8ByteSize_singleton, ← Nat.add_assoc]
    exact later

theorem offsetAfter_toList (text : String) : offsetAfter 0 text.toList = text.utf8ByteSize := by
  rw [offsetAfter_eq, String.ofList_toList, Nat.zero_add]

theorem le_offsetAfter (here : Nat) (text : List Char) : here ≤ offsetAfter here text := by
  rw [offsetAfter_eq]
  exact Nat.le_add_right _ _

theorem lt_offsetAfter (here : Nat) {text : List Char} (some : text ≠ []) : here < offsetAfter here text := by
  cases text with
  | nil => exact absurd rfl some
  | cons c text => exact Nat.lt_of_lt_of_le (Nat.lt_add_of_pos_right c.utf8Size_pos) (le_offsetAfter _ text)

/-- The search finds where the elements that satisfy `p` end, if they come first. The end stays between the bounds. -/
theorem partitionPoint_eq {a : Array Nat} {p : Nat → Bool} {first others : List Nat} {low high : Nat}
    {inside : high ≤ a.size} (split : a.toList = first ++ others) (satisfied : ∀ n ∈ first, p n = true)
    (unsatisfied : ∀ n ∈ others, p n = false) (above : low ≤ first.length) (below : first.length ≤ high) :
    partitionPoint a p low high inside = first.length := by
  have element : ∀ i (within : i < a.size), (i < first.length ∧ p a[i] = true) ∨
      (first.length ≤ i ∧ p a[i] = false) := by
    intro i within
    rw [← Array.getElem_toList within]
    simp only [split]
    by_cases early : i < first.length
    · rw [List.getElem_append_left early]
      exact .inl ⟨early, satisfied _ (List.getElem_mem early)⟩
    · rw [List.getElem_append_right (Nat.le_of_not_lt early)]
      exact .inr ⟨Nat.le_of_not_lt early, unsatisfied _ (List.getElem_mem _)⟩
  fun_induction partitionPoint a p low high inside with
  | case1 low high inside some within found ih =>
    rcases element _ within with ⟨early, _⟩ | ⟨_, other⟩
    · exact ih early below
    · cases found.symm.trans other
  | case2 low high inside some within found ih =>
    rcases element _ within with ⟨_, other⟩ | ⟨late, _⟩
    · exact absurd other found
    · exact ih above late
  | case3 low high inside none => omega

/-- Lines that start behind a place are added behind those that are known. -/
theorem exists_toList_lineStarts (starts : Array Nat) (here : Nat) (text : List Char) :
    ∃ later, (lineStarts starts here text).toList = starts.toList ++ later ∧ ∀ n ∈ later, here < n := by
  induction text generalizing starts here with
  | nil => exact ⟨[], (List.append_nil _).symm, nofun⟩
  | cons c text ih =>
    obtain ⟨later, split, behind⟩ := ih (if c = '\n' then starts.push (here + 1) else starts) (here + c.utf8Size)
    have behind : ∀ n ∈ later, here < n := fun n member =>
      Nat.lt_of_le_of_lt (Nat.le_add_right _ _) (behind n member)
    rw [lineStarts, split]
    by_cases line : c = '\n'
    · refine ⟨(here + 1) :: later, ?_, List.forall_mem_cons.mpr ⟨Nat.lt_succ_self _, behind⟩⟩
      rw [if_pos line, Array.toList_push, List.append_assoc]
      rfl
    · exact ⟨later, by rw [if_neg line], behind⟩

theorem lineStarts_append (starts : Array Nat) (here : Nat) (text text' : List Char) :
    lineStarts starts here (text ++ text') =
      lineStarts (lineStarts starts here text) (offsetAfter here text) text' := by
  induction text generalizing starts here with
  | nil => rfl
  | cons c text ih => exact ih _ _

/-- A text has one line more than it has line ends. The last one starts behind the last of these. -/
theorem exists_last_lineStarts (text : List Char) : ∃ earlier last,
    (lineStarts #[0] 0 text).toList = earlier ++ [last] ∧ earlier.length = text.count '\n' ∧
      earlier.length ≤ last ∧ (∀ n ∈ earlier, n ≤ last) ∧
      last + (String.ofList (text.rtakeWhile (· != '\n'))).utf8ByteSize = offsetAfter 0 text := by
  induction text using List.reverseRecOn with
  | nil => exact ⟨[], 0, rfl, rfl, Nat.le_refl 0, nofun, rfl⟩
  | append_singleton text c ih =>
    obtain ⟨earlier, last, split, count, most, before, place⟩ := ih
    have reached : ∀ n ∈ earlier ++ [last], n ≤ last :=
      List.forall_mem_append.mpr ⟨before, List.forall_mem_singleton.mpr (Nat.le_refl last)⟩
    rw [lineStarts_append, offsetAfter_append]
    by_cases line : c = '\n'
    · subst line
      refine ⟨earlier ++ [last], offsetAfter 0 text + 1, ?_, by simp [count], ?_, ?_, ?_⟩
      · rw [lineStarts, if_pos rfl, lineStarts, Array.toList_push, split]
      · rw [List.length_append, List.length_singleton]
        omega
      · intro n member
        have bound := reached n member
        omega
      · rw [List.rtakeWhile_concat_neg _ _ _ (by decide)]
        rfl
    · refine ⟨earlier, last, ?_, by simp [line, count], most, before, ?_⟩
      · rw [lineStarts, if_neg line, lineStarts, split]
      · rw [List.rtakeWhile_concat_pos _ _ _ (by simp [line]), String.ofList_append, String.utf8ByteSize_append,
          ← String.singleton_eq_ofList, String.utf8ByteSize_singleton, ← Nat.add_assoc, place]
        rfl

namespace LineIndex

/-- The line of a place is the number of line ends before it. Its column counts from behind the last of these. -/
theorem lineColumn_eq (front back : String) : (ofText (front ++ back)).lineColumn front.utf8ByteSize =
    (.ofNat (front.toList.count '\n') + 1, .ofNat (lastLine front).utf8ByteSize + 1) := by
  obtain ⟨earlier, last, split, count, _, before, place⟩ := exists_last_lineStarts front.toList
  obtain ⟨later, whole, behind⟩ := exists_toList_lineStarts (lineStarts #[0] 0 front.toList)
    (offsetAfter 0 front.toList) back.toList
  have offset := offsetAfter_toList front
  rw [← lineStarts_append, ← String.toList_append, split] at whole
  rw [offset] at behind place
  have starts : (ofText (front ++ back)).starts.toList = (earlier ++ [last]) ++ later := whole
  have last_le : last ≤ front.utf8ByteSize := place ▸ Nat.le_add_right _ _
  have reached : ∀ n ∈ earlier ++ [last], n ≤ front.utf8ByteSize :=
    List.forall_mem_append.mpr
      ⟨fun n member => (before n member).trans last_le, List.forall_mem_singleton.mpr last_le⟩
  have size : (earlier ++ [last]).length ≤ (ofText (front ++ back)).starts.size := by
    rw [← Array.length_toList, starts]
    exact (List.sublist_append_left _ later).length_le
  have line : (ofText (front ++ back)).line front.utf8ByteSize = front.toList.count '\n' := by
    rw [LineIndex.line, partitionPoint_eq starts (fun n member => decide_eq_true (reached n member))
      (fun n member => decide_eq_false (Nat.not_le_of_lt (behind n member))) (Nat.zero_le _) size, List.length_append,
      count]
    exact congrArg (· - 1) (Nat.max_eq_left (Nat.le_add_left _ _))
  have start : (ofText (front ++ back)).starts[(ofText (front ++ back)).line front.utf8ByteSize]? = some last := by
    rw [line, ← count, ← Array.getElem?_toList, starts, List.append_assoc, List.getElem?_append_right (Nat.le_refl _),
      Nat.sub_self]
    rfl
  have column : front.utf8ByteSize - last = (lastLine front).utf8ByteSize := by
    rw [← place, Nat.add_sub_cancel_left]
    rfl
  rw [lineColumn, (Array.getElem?_eq_some_iff.mp start).2, line, column]

theorem toNat_ofNat_add_one {n : Nat} (small : n + 1 < UInt32.size) : (UInt32.ofNat n + 1).toNat = n + 1 := by
  rw [UInt32.toNat_add, UInt32.toNat_ofNat_of_lt' (Nat.lt_of_succ_lt small)]
  exact Nat.mod_eq_of_lt small

/-- Lines and columns fit into 32 bits where the number of bytes does. -/
theorem toNat_lineColumn (front back : String) (short : front.utf8ByteSize + 1 < UInt32.size) :
    ((ofText (front ++ back)).lineColumn front.utf8ByteSize).1.toNat = front.toList.count '\n' + 1 ∧
      ((ofText (front ++ back)).lineColumn front.utf8ByteSize).2.toNat = (lastLine front).utf8ByteSize + 1 := by
  obtain ⟨earlier, last, _, count, most, _, place⟩ := exists_last_lineStarts front.toList
  rw [offsetAfter_toList] at place
  have column : last + (lastLine front).utf8ByteSize = front.utf8ByteSize := place
  rw [lineColumn_eq]
  exact ⟨toNat_ofNat_add_one (by omega), toNat_ofNat_add_one (by omega)⟩

end LineIndex

end Deductions
