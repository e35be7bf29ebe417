import Deductions.Proofs.Narration.Forms
import Deductions.Proofs.Path
import Deductions.Proofs.Version
import Mathlib.Data.List.DropRight

namespace Deductions

/-- The texts differ only in which blank characters they have at the same places. -/
abbrev BlankAlike : List Char → List Char → Prop :=
  List.Forall₂ fun c c' => c = c' ∨ isBlank c = true ∧ isBlank c' = true

/-- A blank character is behind one of the periods, and yet the sentence does not end there. -/
def hasStrayPeriod : List Char → Bool
  | [] => false
  | c :: rest => c == '.' && !endsSentence rest && rest.head?.any isBlank || hasStrayPeriod rest

theorem not_isNameRest_of_isBlank {c : Char} (blank : isBlank c = true) : isNameRest c = false := by
  refine Bool.eq_false_iff.mpr fun inName => ?_
  rw [isNameRest, Bool.or_eq_true, Bool.or_eq_true, beq_iff_eq, beq_iff_eq] at inName
  rcases inName with (alphanum | rfl) | rfl
  · rw [isBlank_of_isAlphanum alphanum] at blank
    cases blank
  · cases blank
  · cases blank

namespace BlankAlike

variable {text text' : List Char}

/-- What is not blank stands at the same place in the other text. -/
theorem exists_of_visible {c : Char} {rest : List Char} (alike : BlankAlike (c :: rest) text')
    (visible : ¬ isBlank c = true) : ∃ rest', BlankAlike rest rest' ∧ text' = c :: rest' := by
  obtain ⟨c', rest', head, tail, rfl⟩ := List.forall₂_cons_left_iff.mp alike
  obtain rfl := head.resolve_right fun both => visible both.1
  exact ⟨rest', tail, rfl⟩

theorem dropWhile (alike : BlankAlike text text') {p : Char → Bool}
    (same : ∀ c c', isBlank c = true → isBlank c' = true → p c = p c') :
    BlankAlike (text.dropWhile p) (text'.dropWhile p) := by
  induction alike with
  | nil => exact .nil
  | @cons c c' _ _ head tail ih =>
    have agree : p c = p c' := head.elim (congrArg p) fun ⟨blank, blank'⟩ => same c c' blank blank'
    rw [List.dropWhile_cons, List.dropWhile_cons, ← agree]
    split
    · exact ih
    · exact .cons head tail

theorem trimBlank (alike : BlankAlike text text') : BlankAlike (trimBlank text) (trimBlank text') := by
  have same : ∀ c c', isBlank c = true → isBlank c' = true → isBlank c = isBlank c' :=
    fun _ _ blank blank' => blank.trans blank'.symm
  have first : BlankAlike (text.dropWhile isBlank) (text'.dropWhile isBlank) := alike.dropWhile same
  exact List.rel_reverse (dropWhile (List.rel_reverse first) same)

theorem takeWhile_eq (alike : BlankAlike text text') :
    text.takeWhile isNameRest = text'.takeWhile isNameRest := by
  induction alike with
  | nil => rfl
  | cons head tail ih =>
    rcases head with rfl | ⟨blank, blank'⟩
    · rw [List.takeWhile_cons, List.takeWhile_cons, ih]
    · rw [List.takeWhile_cons, List.takeWhile_cons, not_isNameRest_of_isBlank blank,
        not_isNameRest_of_isBlank blank']
      rfl

/-- Blank characters make no difference to the tokens. -/
theorem narrationTokens_eq (alike : BlankAlike text text') : narrationTokens text = narrationTokens text' := by
  induction text using narrationTokens.induct generalizing text' with
  | case1 =>
    cases alike
    rfl
  | case2 c rest blank ih =>
    obtain ⟨c', rest', head, tail, rfl⟩ := List.forall₂_cons_left_iff.mp alike
    have blank' : isBlank c' = true := head.elim (fun same => same ▸ blank) And.right
    unfold narrationTokens
    rw [if_pos blank, if_pos blank', ih tail]
  | case3 c rest visible separates ih =>
    obtain ⟨rest', tail, rfl⟩ := alike.exists_of_visible visible
    unfold narrationTokens
    rw [if_neg visible, if_pos separates, if_neg visible, if_pos separates, ih tail]
  | case4 c rest visible noSeparator starts ih =>
    obtain ⟨rest', tail, rfl⟩ := alike.exists_of_visible visible
    have later := ih (dropWhile tail fun _ _ blank blank' =>
      (not_isNameRest_of_isBlank blank).trans (not_isNameRest_of_isBlank blank').symm)
    unfold narrationTokens
    rw [if_neg visible, if_neg noSeparator, if_pos starts, if_neg visible, if_neg noSeparator, if_pos starts, later,
      takeWhile_eq tail]
  | case5 c rest visible noSeparator noName =>
    obtain ⟨rest', tail, rfl⟩ := alike.exists_of_visible visible
    unfold narrationTokens
    rw [if_neg visible, if_neg noSeparator, if_neg noName, if_neg visible, if_neg noSeparator, if_neg noName]

theorem endsSentence_eq (alike : BlankAlike text text')
    (noStray : (!endsSentence text && text.head?.any isBlank) = false)
    (noStray' : (!endsSentence text' && text'.head?.any isBlank) = false) :
    endsSentence text = endsSentence text' := by
  cases alike with
  | nil => rfl
  | cons head tail =>
    rcases head with rfl | ⟨blank, blank'⟩
    · rfl
    · rw [List.head?_cons, Option.any_some, blank, Bool.and_true, Bool.not_eq_false'] at noStray
      rw [List.head?_cons, Option.any_some, blank', Bool.and_true, Bool.not_eq_false'] at noStray'
      exact noStray.trans noStray'.symm

/-- Where no period strays, the texts are cut at the same places. -/
theorem cutSentences (alike : BlankAlike text text') (noStray : hasStrayPeriod text = false)
    (noStray' : hasStrayPeriod text' = false) :
    List.Forall₂ BlankAlike (cutSentences text) (cutSentences text') := by
  induction alike with
  | nil => exact .cons .nil .nil
  | @cons c c' rest rest' head tail ih =>
    rw [hasStrayPeriod, Bool.or_eq_false_iff, Bool.and_assoc] at noStray noStray'
    have later := ih noStray.2 noStray'.2
    rw [Deductions.cutSentences, Deductions.cutSentences]
    have cuts : (c = '.' && endsSentence rest) = (c' = '.' && endsSentence rest') := by
      by_cases period : c = '.'
      · obtain rfl : c = c' := head.resolve_right fun ⟨blank, _⟩ => by rw [period] at blank; cases blank
        rw [period, beq_self_eq_true, Bool.true_and] at noStray noStray'
        rw [endsSentence_eq tail noStray.1 noStray'.1]
      · have period' : c' ≠ '.' := by
          rintro rfl
          exact head.elim period fun ⟨_, blank⟩ => by cases blank
        rw [decide_eq_false period, decide_eq_false period', Bool.false_and, Bool.false_and]
    generalize Deductions.cutSentences rest = sentences at later ⊢
    generalize Deductions.cutSentences rest' = sentences' at later ⊢
    rw [cuts]
    split
    · exact .cons .nil later
    · cases later with
      | nil => exact .cons (.cons head .nil) .nil
      | cons sentence others => exact .cons (.cons head sentence) others

theorem splitSentences {text text' : String} (alike : BlankAlike text.toList text'.toList)
    (noStray : hasStrayPeriod text.toList = false) (noStray' : hasStrayPeriod text'.toList = false) :
    List.Forall₂ (fun s s' : String => BlankAlike s.toList s'.toList) (splitSentences text)
      (splitSentences text') := by
  have trimmed : List.Forall₂ BlankAlike ((Deductions.cutSentences text.toList).map Deductions.trimBlank)
      ((Deductions.cutSentences text'.toList).map Deductions.trimBlank) := by
    rw [List.forall₂_map_left_iff, List.forall₂_map_right_iff]
    exact (alike.cutSentences noStray noStray').imp fun _ _ => trimBlank
  have filled := List.rel_filter (p := fun s => !s.isEmpty) (q := fun s => !s.isEmpty) (fun _ _ alike => by
    cases alike <;> rfl) trimmed
  rw [Deductions.splitSentences, Deductions.splitSentences, List.forall₂_map_left_iff, List.forall₂_map_right_iff]
  simpa only [String.toList_ofList] using filled

end BlankAlike

/-- No word with a period is a keyword. -/
theorem NarrationKeyword.ofText?_dot (text : List Char) : ofText? (String.ofList (text ++ ['.'])) = none := by
  have dotted : '.' ∈ (text ++ ['.']).map Char.toLower := by simp
  rw [ofText?, String.toList_ofList]
  split
  all_goals first
    | rfl
    | next spelled =>
      rw [← String.toList_inj, String.toList_ofList] at spelled
      rw [spelled] at dotted
      exact absurd dotted (by decide)

theorem NarrationToken.ofWord_dot (text : List Char) (token : NarrationToken) :
    ofWord (String.ofList (text ++ ['.'])) ≠ .ok token := by
  intro read
  rw [ofWord, NarrationKeyword.ofText?_dot] at read
  dsimp only at read
  split at read
  next p parsed => exact Path.parse_dot text p parsed
  · cases read

theorem eq_append_dot {before after rest : List Char} {c : Char} (whole : before ++ '.' :: after = c :: rest)
    (other : c ≠ '.') : ∃ before', rest = before' ++ '.' :: after := by
  rcases List.append_eq_cons_iff.mp whole with ⟨_, first⟩ | ⟨before', _, rest⟩
  · exact absurd (List.cons.inj first).1.symm other
  · exact ⟨before', rest⟩

/-- A period with no name behind it cannot be read. -/
theorem narrationTokens_dot {before after : List Char} (ends : after.head?.any isNameRest = false)
    (tokens : List NarrationToken) : narrationTokens (before ++ '.' :: after) ≠ .ok tokens := by
  intro read
  generalize whole : before ++ '.' :: after = text at read
  induction text using narrationTokens.induct generalizing before tokens with
  | case1 => simp at whole
  | case2 c rest blank ih =>
    unfold narrationTokens at read
    rw [if_pos blank] at read
    obtain ⟨before', rfl⟩ := eq_append_dot whole (by rintro rfl; cases blank)
    exact ih tokens rfl read
  | case3 c rest visible separates ih =>
    unfold narrationTokens at read
    rw [if_neg visible, if_pos separates] at read
    obtain ⟨before', rfl⟩ := eq_append_dot whole (by rintro rfl; cases separates)
    obtain ⟨others, read, _⟩ := bind_eq_ok.mp read
    exact ih others rfl read
  | case4 c rest visible noSeparator starts ih =>
    unfold narrationTokens at read
    rw [if_neg visible, if_neg noSeparator, if_pos starts] at read
    obtain ⟨before', rfl⟩ := eq_append_dot whole (by rintro rfl; cases starts)
    obtain ⟨token, readWord, read⟩ := bind_eq_ok.mp read
    obtain ⟨others, read, _⟩ := bind_eq_ok.mp read
    -- the word goes on up to the period, or it ends before
    by_cases all : ∀ d ∈ before', isNameRest d = true
    · have taken : (before' ++ '.' :: after).takeWhile isNameRest = before' ++ ['.'] := by
        rw [List.takeWhile_append_of_pos all, List.takeWhile_cons_of_pos rfl]
        cases after with
        | nil => rfl
        | cons d after => rw [List.takeWhile_cons_of_neg (by simpa using ends)]
      rw [taken, ← List.cons_append] at readWord
      exact NarrationToken.ofWord_dot _ token readWord
    · have dropped : (before' ++ '.' :: after).dropWhile isNameRest =
          before'.dropWhile isNameRest ++ '.' :: after := by
        rw [List.dropWhile_append, if_neg (by simpa [List.dropWhile_eq_nil_iff] using all)]
      exact ih others dropped.symm read
  | case5 c rest visible noSeparator noName =>
    unfold narrationTokens at read
    rw [if_neg visible, if_neg noSeparator, if_neg noName] at read
    cases read

/-- A sentence does not end at a period that strays. -/
theorem exists_mem_cutSentences {text : List Char} (strays : hasStrayPeriod text = true) :
    ∃ before c after, isBlank c = true ∧ before ++ '.' :: c :: after ∈ cutSentences text := by
  induction text with
  | nil => cases strays
  | cons c rest ih =>
    rw [hasStrayPeriod, Bool.or_eq_true, Bool.and_eq_true, Bool.and_eq_true, beq_iff_eq, Bool.not_eq_true'] at strays
    rcases strays with ⟨⟨rfl, goesOn⟩, behind⟩ | strays
    · cases rest with
      | nil => cases behind
      | cons d rest =>
        have blank : isBlank d = true := behind
        have noPeriod : d ≠ '.' := by rintro rfl; cases blank
        rw [cutSentences, goesOn, if_neg (by simp), cutSentences, if_neg (by simp [noPeriod])]
        cases cutSentences rest with
        | nil => exact ⟨[], d, [], blank, List.mem_cons_self⟩
        | cons sentence others => exact ⟨[], d, sentence, blank, List.mem_cons_self⟩
    · obtain ⟨before, d, after, blank, member⟩ := ih strays
      rw [cutSentences]
      split
      · exact ⟨before, d, after, blank, List.mem_cons_of_mem _ member⟩
      · split
        next none => rw [none] at member; cases member
        next sentence others cut =>
          rw [cut] at member
          rcases List.mem_cons.mp member with rfl | member
          · exact ⟨c :: before, d, after, blank, List.mem_cons_self⟩
          · exact ⟨before, d, after, blank, List.mem_cons_of_mem _ member⟩

theorem dropWhile_isBlank_dot (before after : List Char) :
    (before ++ '.' :: after).dropWhile isBlank = before.dropWhile isBlank ++ '.' :: after := by
  rw [List.dropWhile_append]
  split
  next none =>
    rw [List.isEmpty_iff.mp none]
    rfl
  · rfl

/-- What is left of the blank characters behind a period. -/
theorem trimBlank_dot (before after : List Char) :
    trimBlank (before ++ '.' :: after) = before.dropWhile isBlank ++ '.' :: after.rdropWhile isBlank := by
  rw [trimBlank, dropWhile_isBlank_dot, List.reverse_append, List.reverse_cons, List.append_assoc]
  change ((after.reverse ++ '.' :: (before.dropWhile isBlank).reverse).dropWhile isBlank).reverse = _
  rw [dropWhile_isBlank_dot, List.reverse_append, List.reverse_cons, List.reverse_reverse, List.append_assoc]
  rfl

theorem parseNarration_stray (owner : Path) {text : String} (strays : hasStrayPeriod text.toList = true)
    (steps : List NarrationStep) : parseNarration owner text ≠ .ok steps := by
  intro read
  obtain ⟨before, c, after, blank, member⟩ := exists_mem_cutSentences strays
  have ends : ((c :: after).rdropWhile isBlank).head?.any isNameRest = false := by
    obtain ⟨rest, whole⟩ := List.rdropWhile_prefix isBlank (c :: after)
    cases left : (c :: after).rdropWhile isBlank with
    | nil => rfl
    | cons d left' =>
      rw [left] at whole
      obtain rfl : d = c := (List.cons.inj whole).1
      exact not_isNameRest_of_isBlank blank
  have inside : String.ofList (trimBlank (before ++ '.' :: c :: after)) ∈ splitSentences text := by
    refine List.mem_map_of_mem (List.mem_filter.mpr ⟨List.mem_map_of_mem member, ?_⟩)
    rw [trimBlank_dot]
    simp
  obtain ⟨form, _, readTokens⟩ := exists_readSteps_iff.mp ⟨steps, read⟩ _ inside
  rw [String.toList_ofList, trimBlank_dot] at readTokens
  exact narrationTokens_dot ends _ readTokens

/-- The steps say the same, each of a sentence with its own text. -/
structure NarrationStep.Agrees (step step' : NarrationStep) : Prop where
  index : step.index = step'.index
  connective : step.connective = step'.connective
  antecedents : step.antecedents = step'.antecedents
  conclusions : step.conclusions = step'.conclusions

/-- Both are refused, or both are read as steps that agree one by one. -/
inductive ReadAlike : (read read' : Except NarrationError (List NarrationStep)) → Prop where
  | refused (e e' : NarrationError) : ReadAlike (.error e) (.error e')
  | agree {steps steps' : List NarrationStep} (agree : List.Forall₂ NarrationStep.Agrees steps steps') :
    ReadAlike (.ok steps) (.ok steps')

theorem ReadAlike.exists_ok_iff {read read' : Except NarrationError (List NarrationStep)}
    (alike : ReadAlike read read') : (∃ steps, read = .ok steps) ↔ ∃ steps, read' = .ok steps := by
  cases alike <;> simp

theorem readStep_eq {index : Nat} {previous : List String} {s s' : String} (alike : BlankAlike s.toList s'.toList) :
    readStep index previous s' = (readStep index previous s).map fun step => { step with sentence := s' } := by
  rw [readStep, readStep, ← alike.narrationTokens_eq]
  cases narrationTokens s.toList with
  | error fault => rfl
  | ok tokens =>
    change (readSentence previous tokens >>= _) = Except.map _ (readSentence previous tokens >>= _)
    cases readSentence previous tokens <;> rfl

theorem readSteps_readAlike {owner : Path} {index : Nat} {previous sentences sentences' : List String}
    (alike : List.Forall₂ (fun s s' : String => BlankAlike s.toList s'.toList) sentences sentences') :
    ReadAlike (readSteps owner index previous sentences) (readSteps owner index previous sentences') := by
  induction alike generalizing index previous with
  | nil => exact .agree .nil
  | @cons s s' sentences sentences' head tail ih =>
    rw [readSteps, readSteps, readStep_eq head]
    cases readStep index previous s with
    | error fault => exact .refused _ _
    | ok step =>
      have later := @ih (index + 1) step.conclusions
      change ReadAlike (readSteps owner (index + 1) step.conclusions sentences >>= _)
        (readSteps owner (index + 1) step.conclusions sentences' >>= _)
      generalize readSteps owner (index + 1) step.conclusions sentences = read at later ⊢
      generalize readSteps owner (index + 1) step.conclusions sentences' = read' at later ⊢
      cases later with
      | refused => exact .refused _ _
      | agree agree => exact .agree (.cons ⟨rfl, rfl, rfl, rfl⟩ agree)

/-- Texts that differ in their blank characters are read alike, unless one of them can be read and the other has a
period that strays.  A text with such a period is never read. -/
theorem parseNarration_readAlike_iff (owner : Path) {text text' : String}
    (alike : BlankAlike text.toList text'.toList) :
    ReadAlike (parseNarration owner text) (parseNarration owner text') ↔
      ((∃ steps, parseNarration owner text = .ok steps) → hasStrayPeriod text'.toList = false) ∧
      ((∃ steps, parseNarration owner text' = .ok steps) → hasStrayPeriod text.toList = false) := by
  have noStray : ∀ text, (∃ steps, parseNarration owner text = .ok steps) → hasStrayPeriod text.toList = false :=
    fun text ⟨steps, read⟩ => Bool.eq_false_iff.mpr fun strays => parseNarration_stray owner strays steps read
  constructor
  · intro readAlike
    exact ⟨fun read => noStray text' (readAlike.exists_ok_iff.mp read),
      fun read => noStray text (readAlike.exists_ok_iff.mpr read)⟩
  · rintro ⟨here, there⟩
    cases read : parseNarration owner text with
    | ok steps =>
      rw [← read]
      have noStray' := here ⟨steps, read⟩
      exact readSteps_readAlike (alike.splitSentences (noStray text ⟨steps, read⟩) noStray')
    | error e =>
      cases read' : parseNarration owner text' with
      | error e' => exact .refused e e'
      | ok steps' =>
        rw [← read, ← read']
        have noStrayHere := there ⟨steps', read'⟩
        exact readSteps_readAlike (alike.splitSentences noStrayHere (noStray text' ⟨steps', read'⟩))

theorem parseNarration_readAlike_iff_blanks :
    BlankAlike "Let A. So B.".toList "Let\u2003A.\tSo\u00a0B.".toList ∧
      ReadAlike (parseNarration (.single "P") "Let A. So B.")
        (parseNarration (.single "P") "Let\u2003A.\tSo\u00a0B.") := by
  have alike : BlankAlike "Let A. So B.".toList "Let\u2003A.\tSo\u00a0B.".toList := by decide +kernel
  refine ⟨alike, (parseNarration_readAlike_iff _ alike).mpr ⟨fun _ => ?_, fun _ => ?_⟩⟩ <;> decide +kernel

/-- A no-break space takes the place of the space behind a period. -/
theorem noBreakSpace_strays : BlankAlike "A. B.".toList "A.\u00a0B.".toList ∧
    parseNarration (.single "P") "A. B." = .ok [⟨1, "A", .next, [], ["A"]⟩, ⟨2, "B", .next, [], ["B"]⟩] ∧
    parseNarration (.single "P") "A.\u00a0B." = .error ⟨.single "P", "A.\u00a0B", .invalidName "A."⟩ ∧
    ¬ ReadAlike (parseNarration (.single "P") "A. B.") (parseNarration (.single "P") "A.\u00a0B.") := by
  have read : parseNarration (.single "P") "A. B." =
      .ok [⟨1, "A", .next, [], ["A"]⟩, ⟨2, "B", .next, [], ["B"]⟩] := by decide +kernel
  have refused : parseNarration (.single "P") "A.\u00a0B." =
      .error ⟨.single "P", "A.\u00a0B", .invalidName "A."⟩ := by decide +kernel
  refine ⟨by decide +kernel, read, refused, ?_⟩
  rw [read, refused]
  exact nofun

end Deductions
