import Deductions.Path
import Deductions.Source.Token

namespace Deductions

/-- The words that open a block, a clause or an import, or stand inside an import. -/
def reservedWords : List String :=
  ["import", "from", "as", "of", "on", "versus", "contra", "wolog"] ++
    NodeKind.all.map NodeKind.keyword

/-- A name of a block, a field or an import, or a segment of one: an identifier that is not
reserved. -/
def IsName (s : String) : Prop := isIdentifier s = true ∧ s ∉ reservedWords

/-- A text that can stand between two `@@@`. -/
def IsRaw (body : List Char) : Prop := ¬ ['@', '@', '@'] <:+: body ∧ body.getLast? ≠ some '@'

namespace Token

theorem ofWordText_keyword (kind : NodeKind) : ofWordText kind.keyword = .block kind := by
  cases kind <;> decide

theorem ofWordText_of_not_reserved {word : String} (free : word ∉ reservedWords) :
    ofWordText word = .identifier word := by
  simp only [reservedWords, List.mem_append, List.mem_cons, List.mem_map, List.not_mem_nil,
    or_false, not_or] at free
  obtain ⟨⟨h1, h2, h3, h4, h5, h6, h7, h8⟩, noKeyword⟩ := free
  have none : NodeKind.ofKeyword? word = none := by
    simp only [NodeKind.ofKeyword?, List.find?_eq_none, beq_iff_eq]
    exact fun kind member same => noKeyword ⟨kind, member, same⟩
  unfold ofWordText
  split <;> simp_all

theorem ofWordText_eq_identifier {word name : String} (same : ofWordText word = .identifier name) :
    name = word ∧ word ∉ reservedWords := by
  by_cases reserved : word ∈ reservedWords
  · rcases List.mem_append.mp reserved with clause | keyword
    · simp only [List.mem_cons, List.not_mem_nil, or_false] at clause
      rcases clause with rfl | rfl | rfl | rfl | rfl | rfl | rfl | rfl <;> cases same
    · obtain ⟨kind, _, rfl⟩ := List.mem_map.mp keyword
      rw [ofWordText_keyword] at same
      cases same
  · rw [ofWordText_of_not_reserved reserved] at same
    cases same
    exact ⟨rfl, reserved⟩

/-- What a token satisfies that was read from a text. -/
def IsLexical : Token → Prop
  | .identifier name => IsName name
  | .raw body => IsRaw body
  | _ => True

theorem splitRaw_sound {text body rest : List Char} (split : splitRaw text = some (body, rest)) :
    IsRaw body := by
  have whole : text = body ++ '@' :: '@' :: '@' :: rest ∧ IsRaw body := by
    fun_induction splitRaw text generalizing body with
    | case1 => cases split
    | case2 others =>
      cases split
      exact ⟨rfl, by simp [List.infix_nil], by simp⟩
    | case3 c others open_ ih =>
      obtain ⟨⟨inner, after⟩, found, same⟩ := Option.map_eq_some_iff.mp split
      cases same
      obtain ⟨rfl, noneInside, noneLast⟩ := ih found
      refine ⟨rfl, ?_, ?_⟩
      · rw [List.infix_cons_iff]
        rintro (⟨after, starts⟩ | inside)
        · cases starts
          exact open_ _ rfl rfl
        · exact noneInside inside
      · cases inner with
        | nil =>
          intro last
          cases last
          exact open_ _ rfl rfl
        | cons d inner => simpa using noneLast
  exact whole.2

theorem splitRaw_append {body : List Char} (raw : IsRaw body) (rest : List Char) :
    splitRaw (body ++ '@' :: '@' :: '@' :: rest) = some (body, rest) := by
  induction body with
  | nil => rfl
  | cons c body ih =>
    obtain ⟨noneInside, noneLast⟩ := raw
    have smaller : IsRaw body := by
      refine ⟨fun inside => noneInside (List.infix_cons inside), fun last => noneLast ?_⟩
      cases body with
      | nil => cases last
      | cons d body => simpa using last
    have closed : ∀ after, c :: (body ++ '@' :: '@' :: '@' :: rest) ≠ '@' :: '@' :: '@' :: after := by
      intro after same
      match body, noneInside, noneLast, same with
      | [], _, noneLast, same => simp_all
      | [d], _, noneLast, same => simp_all
      | d :: e :: body, noneInside, _, same =>
        simp only [List.cons_append, List.cons.injEq] at same
        obtain ⟨rfl, rfl, rfl, _⟩ := same
        exact noneInside ⟨[], body, rfl⟩
    rw [List.cons_append, splitRaw, ih smaller]
    · rfl
    · intro after atC same
      subst atC
      exact closed after (by rw [same])

/-- What follows a word: no character that would be part of it. -/
def EndsWord (rest : List Char) : Prop := ∀ c ∈ rest.head?, isWordRest c = false

theorem endsWord_cons {c : Char} {rest : List Char} (stop : isWordRest c = false) :
    EndsWord (c :: rest) := by simpa [EndsWord] using stop

theorem takeWhile_word {word rest : List Char} (letters : ∀ c ∈ word, isWordRest c = true)
    (stop : EndsWord rest) :
    (word ++ rest).takeWhile isWordRest = word ∧ (word ++ rest).dropWhile isWordRest = rest := by
  have atRest : rest.takeWhile isWordRest = [] ∧ rest.dropWhile isWordRest = rest := by
    cases rest with
    | nil => exact ⟨rfl, rfl⟩
    | cons c rest =>
      have no := stop c rfl
      simp [no]
  rw [List.takeWhile_append_of_pos letters, List.dropWhile_append_of_pos letters, atRest.1,
    atRest.2]
  exact ⟨List.append_nil _, rfl⟩

theorem isWordStart_cases {c : Char} (start : isWordStart c = true) :
    c ≠ '"' ∧ c ≠ '@' ∧ c ≠ '#' ∧ isLayout c = false ∧ isWordRest c = true := by
  refine ⟨?_, ?_, ?_, ?_, ?_⟩
  · rintro rfl; revert start; decide
  · rintro rfl; revert start; decide
  · rintro rfl; revert start; decide
  · rw [Bool.eq_false_iff]
    intro layout
    simp only [isLayout, Bool.or_eq_true, beq_iff_eq] at layout
    rcases layout with (((rfl | rfl) | rfl) | rfl) | rfl <;> revert start <;> decide
  · simp only [isWordStart, isWordRest, Char.isAlphanum, Bool.or_eq_true] at start ⊢
    exact start.imp_left Or.inl

theorem scan_wordStart {c : Char} (start : isWordStart c = true) (rest : List Char) :
    scan (c :: rest) = .ok (ofWordText (String.ofList (c :: rest.takeWhile isWordRest)),
      rest.dropWhile isWordRest) := by
  obtain ⟨quote, marker, _⟩ := isWordStart_cases start
  rw [scan, if_pos start]
  · exact quote
  · exact fun _ same _ => marker same

theorem isIdentifier_eq_cons {word : String} (identifier : isIdentifier word = true) :
    ∃ c rest, word.toList = c :: rest ∧ isWordStart c = true ∧
      ∀ d ∈ rest, isWordRest d = true := by
  unfold isIdentifier at identifier
  split at identifier
  · cases identifier
  next c rest text =>
    rw [Bool.and_eq_true, List.all_eq_true] at identifier
    exact ⟨c, rest, text, identifier⟩

theorem scan_word {word : String} (identifier : isIdentifier word = true) {rest : List Char}
    (stop : EndsWord rest) : scan (word.toList ++ rest) = .ok (ofWordText word, rest) := by
  obtain ⟨c, letters, text, start, all⟩ := isIdentifier_eq_cons identifier
  obtain ⟨taken, dropped⟩ := takeWhile_word all stop
  rw [text, List.cons_append, scan_wordStart start, taken, dropped, ← text, String.ofList_toList]

theorem isLexical_of_ofMark? {c : Char} {token : Token} (mark : ofMark? c = some token) :
    token.IsLexical := by
  unfold ofMark? at mark
  repeat' split at mark
  all_goals cases mark <;> trivial

theorem isLexical_of_scan {text rest : List Char} {token : Token}
    (scanned : scan text = .ok (token, rest)) : token.IsLexical := by
  unfold scan at scanned
  split at scanned
  · cases scanned
  · split at scanned <;> cases scanned
    trivial
  · split at scanned
    next body after split =>
      cases scanned
      exact splitRaw_sound split
    · cases scanned
  next c others _ _ =>
    split at scanned
    next start =>
      simp only [Except.ok.injEq, Prod.mk.injEq] at scanned
      obtain ⟨rfl, -⟩ := scanned
      cases same : ofWordText (String.ofList (c :: others.takeWhile isWordRest)) with
      | identifier name =>
        obtain ⟨rfl, free⟩ := ofWordText_eq_identifier same
        refine ⟨?_, free⟩
        simp only [isIdentifier, String.toList_ofList, Bool.and_eq_true, List.all_eq_true]
        exact ⟨start, List.all_eq_true.mp List.all_takeWhile⟩
      | raw body =>
        exfalso
        revert same
        unfold ofWordText
        split <;> try simp
        split <;> simp
      | _ => trivial
    · split at scanned
      next mark =>
        cases scanned
        exact isLexical_of_ofMark? mark
      · cases scanned

end Token

theorem Lexemes.isLexical_of_read (here : Nat) (text : List Char) :
    ∀ l ∈ (Lexemes.read here text).lexemes, l.token.IsLexical := by
  fun_induction Lexemes.read here text with
  | case1 => simp
  | case2 _ _ _ _ ih => exact ih
  | case3 _ _ _ ih => exact ih
  | case4 => simp
  | case5 here c rest _ _ token others scanned stop after ih =>
    intro l member
    rcases List.mem_cons.mp member with rfl | member
    · exact Token.isLexical_of_scan scanned
    · exact ih l member

theorem Lexemes.read_of_scan {here : Nat} {c : Char} {rest others : List Char} {token : Token}
    (noLayout : ¬ Token.isLayout c = true) (noComment : c ≠ '#')
    (scanned : Token.scan (c :: rest) = .ok (token, others)) :
    read here (c :: rest) = { read (offsetAfter here token.written) others with
      lexemes := ⟨token, here, offsetAfter here token.written⟩ ::
        (read (offsetAfter here token.written) others).lexemes } := by
  rw [read, if_neg noLayout, if_neg noComment]
  split
  next failed => exact absurd (scanned.symm.trans failed) (by simp)
  next found =>
    cases scanned.symm.trans found
    rfl

/-- Whether the text is read as the tokens, whatever place it starts at. -/
def Spells (text : List Char) (tokens : List Token) : Prop :=
  ∀ here, (Lexemes.read here text).fault = none ∧
    (Lexemes.read here text).lexemes.map Lexeme.token = tokens

namespace Spells

theorem nil : Spells [] [] := by
  intro here
  simp [Lexemes.read]

theorem layout {c : Char} {rest : List Char} {tokens : List Token}
    (blank : Token.isLayout c = true) (spells : Spells rest tokens) :
    Spells (c :: rest) tokens := by
  intro here
  rw [Lexemes.read, if_pos blank]
  exact spells _

/-- A token is put in front of what follows it. -/
theorem scan {text rest : List Char} {token : Token} {tokens : List Token}
    (visible : ∀ c ∈ text.head?, Token.isLayout c = false ∧ c ≠ '#')
    (scanned : Token.scan text = .ok (token, rest)) (spells : Spells rest tokens) :
    Spells text (token :: tokens) := by
  intro here
  cases text with
  | nil => cases scanned
  | cons c others =>
    obtain ⟨noLayout, noComment⟩ := visible c rfl
    obtain ⟨noFault, same⟩ := spells (offsetAfter here token.written)
    rw [Lexemes.read_of_scan (by simp [noLayout]) noComment scanned]
    exact ⟨noFault, by simp [same]⟩

end Spells

end Deductions
