import Deductions.Proofs.Source.Layout

namespace Deductions

/-- The bytes of the text from `span.start` up to `span.stop` are those of `slice`. -/
def Span.IsSlice (text : String) (span : Span) (slice : String) : Prop :=
  ∃ front back : String, text = front ++ slice ++ back ∧ front.utf8ByteSize = span.start ∧
    (front ++ slice).utf8ByteSize = span.stop

/-- The line is one plus the number of line ends in front of the span, the column one plus the number of bytes between
the last of these and the span. -/
def Span.IsPlaced (text : String) (span : Span) : Prop :=
  ∃ front back : String, text = front ++ back ∧ front.utf8ByteSize = span.start ∧
    span.line.toNat = front.toList.count '\n' + 1 ∧ span.column.toNat = (lastLine front).utf8ByteSize + 1

theorem Token.EndsWord.of_append {text rest : List Char} (ends : Token.EndsWord (text ++ rest)) :
    Token.EndsWord text := fun c head => ends c (by rw [List.head?_append, Option.mem_def.mp head]; rfl)

namespace Lexemes

/-- Reading goes on at a token as it does on a text of its own. -/
theorem exists_rest {here : Nat} {text : List Char} (noFault : (read here text).fault = none)
    {before after : List Lexeme} {l : Lexeme} (split : (read here text).lexemes = before ++ l :: after) :
    ∃ front rest, text = front ++ rest ∧ l.start = offsetAfter here front ∧
      (read l.start rest).lexemes = l :: after ∧ (read l.start rest).fault = none := by
  fun_induction Lexemes.read here text generalizing before with
  | case1 => simp at split
  | case2 here c rest blank ih =>
    obtain ⟨front, others, rfl, start, same⟩ := ih noFault split
    exact ⟨c :: front, others, rfl, start, same⟩
  | case3 here rest _ ih =>
    obtain ⟨front, others, behind, start, same⟩ := ih noFault split
    refine ⟨'#' :: rest.takeWhile (· != '\n') ++ front, others, ?_, ?_, same⟩
    · rw [List.append_assoc, ← behind, List.cons_append, List.takeWhile_append_dropWhile]
    · rw [start, offsetAfter_append]
  | case4 => cases noFault
  | case5 here c rest noLayout noComment token others scanned stop later =>
    rename_i ih
    cases before with
    | nil =>
      obtain ⟨rfl, rfl⟩ := List.cons.inj split
      refine ⟨[], c :: rest, rfl, rfl, ?_⟩
      rw [read_of_scan noLayout noComment scanned]
      exact ⟨rfl, noFault⟩
    | cons first before =>
      obtain ⟨front, others', rfl, start, same⟩ := ih noFault (List.cons.inj split).2
      refine ⟨token.written ++ front, others', ?_, ?_, same⟩
      · rw [Token.scan_eq scanned, List.append_assoc]
      · rw [start, offsetAfter_append]

/-- The text up to the end of a token spells the tokens up to that one, taken alone. -/
theorem exists_spelling {here : Nat} {text : List Char} (noFault : (read here text).fault = none)
    {taken after : List Lexeme} {last : Lexeme} (split : (read here text).lexemes = taken ++ after)
    (ends : taken.getLast? = some last) :
    ∃ slice back, text = slice ++ back ∧ last.stop = offsetAfter here slice ∧
      Spells slice (taken.map Lexeme.token) := by
  fun_induction Lexemes.read here text generalizing taken with
  | case1 =>
    obtain ⟨rfl, -⟩ := List.append_eq_nil_iff.mp split.symm
    cases ends
  | case2 here c rest blank ih =>
    obtain ⟨slice, back, rfl, stop, spells⟩ := ih noFault split ends
    exact ⟨c :: slice, back, rfl, stop, .layout blank spells⟩
  | case3 here rest _ ih =>
    obtain ⟨slice, back, behind, stop, spells⟩ := ih noFault split ends
    refine ⟨'#' :: rest.takeWhile (· != '\n') ++ slice, back, ?_, ?_, .comment (notMem_takeWhile_line rest) ?_ spells⟩
    · rw [List.append_assoc, ← behind, List.cons_append, List.takeWhile_append_dropWhile]
    · rw [stop, offsetAfter_append]
    · -- the comment stands at the end of its line in the slice as well
      intro c head
      have line := head?_dropWhile_line rest c
      rw [behind, List.head?_append, Option.mem_def.mp head] at line
      exact line rfl
  | case4 => cases noFault
  | case5 here c rest noLayout noComment token others scanned stop later =>
    rename_i ih
    cases taken with
    | nil => cases ends
    | cons first taken =>
      obtain ⟨rfl, behind⟩ := List.cons.inj split
      cases taken with
      | nil =>
        cases ends
        refine ⟨token.written, others, Token.scan_eq scanned, rfl, ?_⟩
        have alone := Spells.nil.token noLayout noComment scanned
          fun _ _ head => absurd head (Option.not_mem_none _)
        rwa [List.append_nil] at alone
      | cons second taken =>
        obtain ⟨slice, back, rfl, place, spells⟩ := ih noFault behind (by rwa [List.getLast?_cons_cons] at ends)
        refine ⟨token.written ++ slice, back, ?_, ?_, ?_⟩
        · rw [Token.scan_eq scanned, List.append_assoc]
        · rw [place, offsetAfter_append]
        · exact spells.token noLayout noComment scanned .of_append

/-- Tokens that follow each other in a text are spelled by the stretch of text that they take. -/
theorem exists_slice {here : Nat} {text : List Char} (noFault : (read here text).fault = none)
    {before taken after : List Lexeme} {first last : Lexeme}
    (split : (read here text).lexemes = before ++ (taken ++ after)) (starts : taken.head? = some first)
    (ends : taken.getLast? = some last) :
    ∃ front slice back, text = front ++ slice ++ back ∧ first.start = offsetAfter here front ∧
      last.stop = offsetAfter here (front ++ slice) ∧ Spells slice (taken.map Lexeme.token) := by
  obtain ⟨others, rfl⟩ := List.head?_eq_some_iff.mp starts
  obtain ⟨front, rest, rfl, start, behind, noFault⟩ := exists_rest noFault split
  obtain ⟨slice, back, rfl, stop, spells⟩ := exists_spelling noFault behind ends
  refine ⟨front, slice, back, (List.append_assoc ..).symm, start, ?_, spells⟩
  rw [stop, start, offsetAfter_append]

end Lexemes

/-- Each of the tokens ends behind its start, and before the next one starts. -/
structure InOrder (lexemes : List Lexeme) : Prop where
  long : ∀ l ∈ lexemes, l.start < l.stop
  apart : lexemes.Pairwise fun l l' => l.stop ≤ l'.start

theorem Lexemes.inOrder_read (here : Nat) (text : List Char) : InOrder (read here text).lexemes := by
  refine ⟨fun l member => (place_of_mem_read here text l member).2, ?_⟩
  fun_induction Lexemes.read here text with
  | case1 => exact .nil
  | case2 _ _ _ _ ih => exact ih
  | case3 _ _ _ ih => exact ih
  | case4 => exact .nil
  | case5 here c rest _ _ token others _ stop later ih =>
    exact List.pairwise_cons.mpr ⟨fun l member => (place_of_mem_read stop others l member).1, ih⟩

theorem InOrder.sublist {lexemes taken : List Lexeme} (inOrder : InOrder lexemes) (part : taken.Sublist lexemes) :
    InOrder taken :=
  ⟨fun l member => inOrder.long l (part.subset member), inOrder.apart.sublist part⟩

/-- The span runs from the start of the first of the tokens to the end of the last, in the text with these lines. -/
def Span.Covers (span : Span) (index : LineIndex) (taken : List Lexeme) : Prop :=
  ∃ first last, taken.head? = some first ∧ taken.getLast? = some last ∧ span = index.span first.start last.stop

namespace Span.Covers

variable {index : LineIndex} {span span' : Span} {taken taken' : List Lexeme}

theorem start_lt (covers : span.Covers index taken) (inOrder : InOrder taken) : span.start < span.stop := by
  obtain ⟨first, last, starts, ends, rfl⟩ := covers
  obtain ⟨others, rfl⟩ := List.head?_eq_some_iff.mp starts
  have long := inOrder.long first List.mem_cons_self
  cases others with
  | nil =>
    cases ends
    exact long
  | cons second others =>
    rw [List.getLast?_cons_cons] at ends
    have member := List.mem_of_getLast? ends
    have behind := (List.pairwise_cons.mp inOrder.apart).1 last member
    exact long.trans_le (behind.trans (inOrder.long last (List.mem_cons_of_mem _ member)).le)

/-- Spans of tokens that stand behind each other do so as well. -/
theorem stop_le (covers : span.Covers index taken) (covers' : span'.Covers index taken')
    (inOrder : InOrder (taken ++ taken')) : span.stop ≤ span'.start := by
  obtain ⟨_, last, _, ends, rfl⟩ := covers
  obtain ⟨first, _, starts, _, rfl⟩ := covers'
  exact (List.pairwise_append.mp inOrder.apart).2.2 last (List.mem_of_getLast? ends) first (List.mem_of_head? starts)

/-- What is in front of some of the tokens starts where all of them do. -/
theorem exists_front {opening others : List Lexeme} (covers : span.Covers index (opening ++ others))
    (some : opening ≠ []) : ∃ part : Span, part.Covers index opening ∧ part.start = span.start := by
  obtain ⟨first, last, starts, _, rfl⟩ := covers
  rw [List.head?_append_of_ne_nil _ some] at starts
  obtain ⟨stop, ends⟩ := Option.ne_none_iff_exists'.mp (mt List.getLast?_eq_none_iff.mp some)
  exact ⟨_, ⟨first, stop, starts, ends, rfl⟩, rfl⟩

/-- What is behind some of the tokens ends where all of them do. -/
theorem exists_back {others closing : List Lexeme} (covers : span.Covers index (others ++ closing))
    (some : closing ≠ []) : ∃ part : Span, part.Covers index closing ∧ part.stop = span.stop := by
  obtain ⟨first, last, _, ends, rfl⟩ := covers
  rw [List.getLast?_append_of_ne_nil _ some] at ends
  obtain ⟨start, starts⟩ := Option.ne_none_iff_exists'.mp (mt List.head?_eq_none_iff.mp some)
  exact ⟨_, ⟨start, last, starts, ends, rfl⟩, rfl⟩

/-- The text in front of what a span covers, that text itself, and what follows it. -/
theorem exists_parts {text : String} (noFault : (Lexemes.ofText text).fault = none)
    (covers : span.Covers (.ofText text) taken) (within : taken <:+: (Lexemes.ofText text).lexemes) :
    ∃ front slice back : String, text = front ++ slice ++ back ∧
      span = (LineIndex.ofText text).span front.utf8ByteSize (front ++ slice).utf8ByteSize ∧
      Spells slice.toList (taken.map Lexeme.token) := by
  obtain ⟨first, last, starts, ends, rfl⟩ := covers
  obtain ⟨before, after, split⟩ := within
  rw [List.append_assoc] at split
  obtain ⟨front, slice, back, whole, start, stop, spells⟩ := Lexemes.exists_slice noFault split.symm starts ends
  refine ⟨.ofList front, .ofList slice, .ofList back, ?_, ?_, by rwa [String.toList_ofList]⟩
  · rw [← String.ofList_append, ← String.ofList_append, ← whole, String.ofList_toList]
  · rw [start, stop, offsetAfter_eq, offsetAfter_eq, ← String.ofList_append, Nat.zero_add, Nat.zero_add]

/-- What a span covers is spelled by its slice of the text. -/
theorem exists_slice {text : String} (noFault : (Lexemes.ofText text).fault = none)
    (covers : span.Covers (.ofText text) taken) (within : taken <:+: (Lexemes.ofText text).lexemes) :
    ∃ slice, span.IsSlice text slice ∧ Spells slice.toList (taken.map Lexeme.token) := by
  obtain ⟨front, slice, back, whole, rfl, spells⟩ := covers.exists_parts noFault within
  exact ⟨slice, ⟨front, back, whole, rfl, rfl⟩, spells⟩

theorem isPlaced {text : String} (short : text.utf8ByteSize < UInt32.size)
    (noFault : (Lexemes.ofText text).fault = none) (covers : span.Covers (.ofText text) taken)
    (within : taken <:+: (Lexemes.ofText text).lexemes) : span.IsPlaced text := by
  have longer := covers.start_lt ((Lexemes.inOrder_read 0 text.toList).sublist within.sublist)
  obtain ⟨front, slice, back, whole, rfl, _⟩ := covers.exists_parts noFault within
  have parts : front.utf8ByteSize < text.utf8ByteSize := by
    rw [whole, String.utf8ByteSize_append]
    exact Nat.lt_of_lt_of_le longer (Nat.le_add_right _ _)
  have place := LineIndex.toNat_lineColumn front (slice ++ back) (Nat.lt_of_le_of_lt parts short)
  rw [← String.append_assoc, ← whole] at place
  exact ⟨front, slice ++ back, by rw [whole, String.append_assoc], rfl, place⟩

end Span.Covers

end Deductions
