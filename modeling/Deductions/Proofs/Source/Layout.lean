import Deductions.Proofs.Source.Lines
import Deductions.Proofs.Source.Placeless

namespace Deductions

theorem Token.written_eq_cons {c : Char} {rest others : List Char} {token : Token}
    (scanned : scan (c :: rest) = .ok (token, others)) : ∃ letters, token.written = c :: letters := by
  have whole := scan_eq scanned
  cases letters : token.written with
  | nil =>
    have shorter := scan_length scanned
    rw [whole, letters, List.nil_append] at shorter
    exact absurd shorter (Nat.lt_irrefl _)
  | cons d letters' =>
    rw [letters, List.cons_append] at whole
    exact ⟨letters', by rw [(List.cons.inj whole).1]⟩

/-- A token of a text starts behind the place where the text does, and ends behind its own start. -/
theorem Lexemes.place_of_mem_read (here : Nat) (text : List Char) :
    ∀ l ∈ (Lexemes.read here text).lexemes, here ≤ l.start ∧ l.start < l.stop := by
  fun_induction Lexemes.read here text with
  | case1 => exact fun _ member => absurd member List.not_mem_nil
  | case2 here c rest _ ih =>
    intro l member
    obtain ⟨start, stop⟩ := ih l member
    exact ⟨Nat.le_trans (le_offsetAfter here [c]) start, stop⟩
  | case3 here rest _ ih =>
    intro l member
    obtain ⟨start, stop⟩ := ih l member
    exact ⟨Nat.le_trans (le_offsetAfter here _) start, stop⟩
  | case4 => exact fun _ member => absurd member List.not_mem_nil
  | case5 here c rest _ _ token others scanned stop after ih =>
    obtain ⟨letters, written⟩ := Token.written_eq_cons scanned
    have longer : here < stop := lt_offsetAfter here (by rw [written]; exact List.cons_ne_nil c letters)
    intro l member
    rcases List.mem_cons.mp member with rfl | member
    · exact ⟨Nat.le_refl _, longer⟩
    · obtain ⟨start, stop⟩ := ih l member
      exact ⟨Nat.le_trans (Nat.le_of_lt longer) start, stop⟩

namespace Token

theorem splitString_append {text body rest : List Char} (split : splitString text = some (body, rest))
    (rest' : List Char) : splitString (body ++ '"' :: rest') = some (body, rest') := by
  fun_induction splitString text generalizing body with
  | case1 => cases split
  | case2 others =>
    cases split
    rfl
  | case3 => cases split
  | case4 c others sameLine ih =>
    obtain ⟨⟨inner, after⟩, found, same⟩ := Option.map_eq_some_iff.mp split
    cases same
    rw [List.cons_append, List.cons_append, splitString, if_neg sameLine, ih found]
    rfl
  | case5 => cases split
  | case6 c others noQuote noEscape noSlash ih =>
    obtain ⟨⟨inner, after⟩, found, same⟩ := Option.map_eq_some_iff.mp split
    cases same
    rw [List.cons_append, splitString, if_neg noSlash, ih found]
    · rfl
    · exact noQuote
    · exact fun _ _ slash _ => noSlash slash

/-- A token is read as well before another text, one that does not go on with its word. -/
theorem scan_append {text rest : List Char} {token : Token} (scanned : scan text = .ok (token, rest))
    {rest' : List Char} (ends : EndsWord rest → EndsWord rest') :
    scan (token.written ++ rest') = .ok (token, rest') := by
  unfold scan at scanned
  split at scanned
  · cases scanned
  · split at scanned
    next body after split =>
      cases scanned
      have whole : '"' :: body ++ ['"'] ++ rest' = '"' :: (body ++ '"' :: rest') := by simp
      change scan ('"' :: body ++ ['"'] ++ rest') = _
      rw [whole, scan, splitString_append split]
    · cases scanned
  · split at scanned
    next body after split =>
      cases scanned
      have whole : '@' :: '@' :: '@' :: body ++ ['@', '@', '@'] ++ rest' =
        '@' :: '@' :: '@' :: (body ++ '@' :: '@' :: '@' :: rest') := by simp
      change scan ('@' :: '@' :: '@' :: body ++ ['@', '@', '@'] ++ rest') = _
      rw [whole, scan, splitRaw_append (splitRaw_sound split)]
    · cases scanned
  next c others noQuote noRaw =>
    split at scanned
    next start =>
      cases scanned
      have endsHere : EndsWord (others.dropWhile isWordRest) := by
        intro d head
        have stops := List.head?_dropWhile_not isWordRest others
        rwa [Option.mem_def.mp head] at stops
      obtain ⟨taken, dropped⟩ := takeWhile_word
        (fun d member => List.all_eq_true.mp (List.all_takeWhile (p := isWordRest) (l := others)) d member)
        (ends endsHere)
      rw [written_ofWordText, String.toList_ofList, List.cons_append, scan_wordStart start, taken, dropped]
    next noWord =>
      split at scanned
      next mark =>
        cases scanned
        rw [written_ofMark? mark, List.singleton_append, scan, if_neg noWord, mark]
        · exact noQuote
        · rintro _ rfl _
          cases mark
      · cases scanned

end Token

/-- Blanks and comments, each comment with the end of its line. -/
inductive AreBlank : List Char → Prop
  | nil : AreBlank []
  | blank {c : Char} {others : List Char} (layout : Token.isLayout c = true) (rest : AreBlank others) :
      AreBlank (c :: others)
  | comment {others : List Char} (text : List Char) (oneLine : '\n' ∉ text) (rest : AreBlank others) :
      AreBlank ('#' :: text ++ '\n' :: others)

/-- The text with `pieces n` put in at each of its bytes `n`, where `place` is the first one. -/
def insertAt (pieces : Nat → List Char) (place : Nat) : List Char → List Char
  | [] => pieces place
  | c :: rest => pieces place ++ c :: insertAt pieces (place + c.utf8Size) rest

/-- The text starts at the place, or one of its tokens starts or ends there. -/
def IsBoundary (text : List Char) (place : Nat) : Prop :=
  place = 0 ∨ ∃ l ∈ (Lexemes.read 0 text).lexemes, place = l.start ∨ place = l.stop

/-- Where nothing is put into a beginning of a text, it stays in one piece. -/
theorem insertAt_append {pieces : Nat → List Char} {place : Nat} {c : Char} {text : List Char} (rest : List Char)
    (none : ∀ n, place < n → n < offsetAfter place (c :: text) → pieces n = []) :
    insertAt pieces place (c :: text ++ rest) =
      pieces place ++ (c :: text ++ insertAt pieces (offsetAfter place (c :: text)) rest) := by
  induction text generalizing place c with
  | nil => rfl
  | cons d text ih =>
    have first : place < place + c.utf8Size := lt_offsetAfter place (List.cons_ne_nil c [])
    have later := @ih (place + c.utf8Size) d fun n after => none n (Nat.lt_trans first after)
    rw [none _ first (lt_offsetAfter _ (List.cons_ne_nil d text)), List.nil_append] at later
    exact congrArg (pieces place ++ c :: ·) later

namespace Spells

variable {rest : List Char} {tokens : List Token}

/-- A comment is put in front of the end of its line. -/
theorem comment {text : List Char} (oneLine : '\n' ∉ text) (ends : ∀ c ∈ rest.head?, c = '\n')
    (spells : Spells rest tokens) : Spells ('#' :: text ++ rest) tokens := by
  have same : ∀ c ∈ text, (c != '\n') = true := fun c member => bne_iff_ne.mpr fun line => oneLine (line ▸ member)
  have stop : rest.takeWhile (· != '\n') = [] ∧ rest.dropWhile (· != '\n') = rest := by
    cases rest with
    | nil => exact ⟨rfl, rfl⟩
    | cons c rest => simp [ends c rfl]
  intro here
  rw [List.cons_append, Lexemes.read, if_neg (by decide), if_pos rfl, List.takeWhile_append_of_pos same,
    List.dropWhile_append_of_pos same, stop.2]
  exact spells _

/-- What was read as a token is put in front of another text, one that does not go on with its word. -/
theorem token {c : Char} {text others : List Char} {token : Token} (spells : Spells rest tokens)
    (noLayout : ¬ Token.isLayout c = true) (noComment : c ≠ '#')
    (scanned : Token.scan (c :: text) = .ok (token, others)) (ends : Token.EndsWord others → Token.EndsWord rest) :
    Spells (token.written ++ rest) (token :: tokens) := by
  refine .scan ?_ (Token.scan_append scanned ends) spells
  obtain ⟨letters, written⟩ := Token.written_eq_cons scanned
  intro d head
  rw [written] at head
  cases head
  exact ⟨Bool.eq_false_iff.mpr noLayout, noComment⟩

theorem blanks {piece : List Char} (areBlank : AreBlank piece) (spells : Spells rest tokens) :
    Spells (piece ++ rest) tokens := by
  induction areBlank with
  | nil => exact spells
  | blank blank _ ih => exact .layout blank ih
  | comment text oneLine _ ih =>
    rw [List.append_assoc]
    exact .comment oneLine (by simp) (.layout rfl ih)

end Spells

/-- What follows a comment that was read. -/
theorem head?_dropWhile_line (text : List Char) : ∀ c ∈ (text.dropWhile (· != '\n')).head?, c = '\n' := by
  intro c head
  have stops := List.head?_dropWhile_not (· != '\n') text
  rw [Option.mem_def.mp head] at stops
  simpa using stops

/-- No token starts before the end of the line. -/
theorem Lexemes.lt_of_mem_read {here : Nat} {text : List Char} (line : ∀ c ∈ text.head?, c = '\n') {l : Lexeme}
    (member : l ∈ (Lexemes.read here text).lexemes) : here < l.start := by
  cases text with
  | nil =>
    rw [Lexemes.read] at member
    cases member
  | cons c rest =>
    obtain rfl := line c rfl
    rw [Lexemes.read, if_pos (show Token.isLayout '\n' = true from rfl)] at member
    exact Nat.lt_of_lt_of_le (lt_offsetAfter here (List.cons_ne_nil _ [])) (Lexemes.place_of_mem_read _ _ l member).1

section

variable {pieces : Nat → List Char} (areBlank : ∀ n, AreBlank (pieces n))
include areBlank

theorem endsWord_insertAt {place : Nat} {text : List Char} (ends : Token.EndsWord text) :
    Token.EndsWord (insertAt pieces place text) := by
  have start : ∀ rest, Token.EndsWord rest → Token.EndsWord (pieces place ++ rest) := by
    intro rest ends
    have blank := areBlank place
    generalize pieces place = piece at blank
    cases blank with
    | nil => exact ends
    | @blank c _ layout =>
      refine Token.endsWord_cons ?_
      simp only [Token.isLayout, Bool.or_eq_true, beq_iff_eq] at layout
      rcases layout with (((rfl | rfl) | rfl) | rfl) | rfl <;> decide
    | comment => exact Token.endsWord_cons (by decide)
  cases text with
  | nil => simpa [insertAt] using start [] ends
  | cons c rest => exact start _ (Token.endsWord_cons (ends c rfl))

/-- The tokens stay as they are when layout is put in where they start and end. -/
theorem Lexemes.spells_insertAt {here : Nat} {text : List Char} (noFault : (Lexemes.read here text).fault = none)
    (boundary : ∀ n, here < n → pieces n ≠ [] →
      ∃ l ∈ (Lexemes.read here text).lexemes, n = l.start ∨ n = l.stop) :
    Spells (insertAt pieces here text) ((Lexemes.read here text).lexemes.map Lexeme.token) := by
  fun_induction Lexemes.read here text with
  | case1 here => simpa [insertAt] using Spells.blanks (areBlank here) .nil
  | case2 here c rest blank ih =>
    have further := lt_offsetAfter here (List.cons_ne_nil c [])
    exact .blanks (areBlank _) (.layout blank (ih noFault fun n after => boundary n (Nat.lt_trans further after)))
  | case3 here rest _ ih =>
    have line := head?_dropWhile_line rest
    have further : here < offsetAfter here ('#' :: rest.takeWhile (· != '\n')) :=
      lt_offsetAfter here (List.cons_ne_nil _ _)
    -- tokens are behind the end of the line, and so is what is put in
    have none : ∀ n, here < n → n ≤ offsetAfter here ('#' :: rest.takeWhile (· != '\n')) →
        pieces n = [] := by
      refine fun n after within => Decidable.byContradiction fun some => ?_
      obtain ⟨l, member, place⟩ := boundary n after some
      have start := Lexemes.lt_of_mem_read line member
      have stop := (Lexemes.place_of_mem_read _ _ l member).2
      omega
    have behind := ih noFault fun n after => boundary n (Nat.lt_trans further after)
    have parts := insertAt_append (rest.dropWhile (· != '\n')) fun n after within => none n after (Nat.le_of_lt within)
    rw [List.cons_append, List.takeWhile_append_dropWhile] at parts
    rw [parts]
    refine .blanks (areBlank _) (.comment (notMem_takeWhile_line rest) ?_ behind)
    have nothing := none _ further (Nat.le_refl _)
    cases others : rest.dropWhile (· != '\n') with
    | nil => simp [insertAt, nothing]
    | cons c others =>
      rw [others] at line
      rw [insertAt, nothing]
      exact line
  | case4 => cases noFault
  | case5 here c rest noLayout noComment token others scanned stop later ih =>
    obtain ⟨letters, written⟩ := Token.written_eq_cons scanned
    have further : here < stop := lt_offsetAfter here (by rw [written]; exact List.cons_ne_nil c letters)
    have none : ∀ n, here < n → n < offsetAfter here (c :: letters) → pieces n = [] := by
      rw [← written]
      refine fun n after (within : n < stop) => Decidable.byContradiction fun some => ?_
      obtain ⟨l, member, place⟩ := boundary n after some
      rcases List.mem_cons.mp member with rfl | member
      · exact place.elim (Nat.ne_of_gt after) (Nat.ne_of_lt within)
      · have bounds := Lexemes.place_of_mem_read _ _ l member
        omega
    have behind := ih noFault fun n after some => by
      obtain ⟨l, member, place⟩ := boundary n (Nat.lt_trans further after) some
      rcases List.mem_cons.mp member with rfl | member
      · exact (place.elim (Nat.ne_of_gt (Nat.lt_trans further after)) (Nat.ne_of_gt after)).elim
      · exact ⟨l, member, place⟩
    rw [Token.scan_eq scanned, written, insertAt_append others none, ← written]
    exact .blanks (areBlank _) (behind.token noLayout noComment scanned (endsWord_insertAt areBlank))

end

/-- A text whose tokens can all be read is read as the same source but for spans, or refused for the same fault, when
layout is put in where the text starts and where its tokens start and end. -/
theorem Source.parse_insertAt {text : String} (lexes : (Lexemes.ofText text).fault = none)
    {pieces : Nat → List Char} (areBlank : ∀ n, AreBlank (pieces n))
    (boundary : ∀ n, pieces n ≠ [] → IsBoundary text.toList n) :
    AlikeUpTo (fun s s' => s.eraseSpans = s'.eraseSpans) (Source.parse text)
      (Source.parse (String.ofList (insertAt pieces 0 text.toList))) := by
  have spells : Spells (insertAt pieces 0 text.toList) (tokensOf text) :=
    Lexemes.spells_insertAt areBlank lexes fun n after some => (boundary n some).resolve_left (Nat.ne_of_gt after)
  have read : Lexemes.ofText (String.ofList (insertAt pieces 0 text.toList)) =
      Lexemes.read 0 (insertAt pieces 0 text.toList) := by rw [Lexemes.ofText, String.toList_ofList]
  obtain ⟨lexes', same⟩ := spells 0
  rw [← read] at lexes' same
  exact Source.parse_alike lexes lexes' same.symm

/-- A text without more layout than it needs. -/
def bareText : String := "deduc T\x7basrt A\x7ben=\"a\"\x7d\x7d"

/-- A comment at its start, a blank and a comment behind `T`, and the end of a line behind the string. -/
def notes : Nat → List Char
  | 0 => ['#', 'a', '\n']
  | 7 => [' ', '#', '\x7d', '\n', '\t']
  | 21 => ['\n']
  | _ => []

theorem parse_insertAt_notes :
    String.ofList (insertAt notes 0 bareText.toList) = "#a\ndeduc T #\x7d\n\t\x7basrt A\x7ben=\"a\"\n\x7d\x7d" ∧
    (Source.parse bareText).toOption.isSome = true ∧
    AlikeUpTo (fun s s' => s.eraseSpans = s'.eraseSpans) (Source.parse bareText)
      (Source.parse "#a\ndeduc T #\x7d\n\t\x7basrt A\x7ben=\"a\"\n\x7d\x7d") := by
  have lexes : (Lexemes.ofText bareText).fault = none := by decide +kernel
  have areBlank : ∀ n, AreBlank (notes n) := by
    intro n
    unfold notes
    split
    · exact .comment ['a'] (by decide) .nil
    · exact .blank rfl (.comment ['\x7d'] (by decide) (.blank rfl .nil))
    · exact .blank rfl .nil
    · exact .nil
  have boundary : ∀ n, notes n ≠ [] → IsBoundary bareText.toList n := by
    intro n some
    unfold notes at some
    split at some
    · exact .inl rfl
    · exact .inr (by decide +kernel)
    · exact .inr (by decide +kernel)
    · exact absurd rfl some
  have text : String.ofList (insertAt notes 0 bareText.toList) =
      "#a\ndeduc T #\x7d\n\t\x7basrt A\x7ben=\"a\"\n\x7d\x7d" := by decide +kernel
  exact ⟨text, by decide +kernel, text ▸ Source.parse_insertAt lexes areBlank boundary⟩

end Deductions
