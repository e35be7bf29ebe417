import Deductions.Proofs.Narration

namespace Deductions

/-- What stands between two names. -/
inductive Joiner where
  | andWord
  | separator

def Joiner.token : Joiner → NarrationToken
  | .andWord => .keyword .andWord
  | .separator => .separator

/-- Names that are joined, and whether a separator closes the list. -/
structure NameList where
  first : String
  others : List (Joiner × String)
  closed : Bool

namespace NameList

def names (l : NameList) : List String := l.first :: l.others.map Prod.snd

def tokens (l : NameList) : List NarrationToken :=
  .name l.first :: l.others.flatMap (fun (joiner, name) => [joiner.token, .name name]) ++
    if l.closed then [.separator] else []

/-- The list with one more name in front. -/
def cons (name : String) (joiner : Joiner) (l : NameList) : NameList :=
  ⟨name, (joiner, l.first) :: l.others, l.closed⟩

/-- Only a list that `by`, `using` or `get` follows may be closed. -/
def FitsBefore (l : NameList) (rest : List NarrationToken) : Prop := l.closed = true → opensPart rest = true

end NameList

/-- Names end where the sentence does, and before `by`, `using` and `get`. -/
def EndsNames (rest : List NarrationToken) : Prop := rest = [] ∨ opensPart rest = true

theorem exists_of_readNames {tokens rest : List NarrationToken} {names : List String}
    (read : readNames tokens = .ok (names, rest)) :
    ∃ l : NameList, l.FitsBefore rest ∧ l.names = names ∧ l.tokens ++ rest = tokens := by
  induction tokens using readNames.induct generalizing names rest with
  | case1 first others ih =>
    rw [readNames] at read
    obtain ⟨_, readLater, done⟩ := bind_eq_ok.mp read
    cases done
    obtain ⟨l, fits, named, rfl⟩ := ih readLater
    exact ⟨l.cons first .andWord, fits, congrArg _ named, rfl⟩
  | case2 first others opens =>
    rw [readNames, if_pos opens] at read
    cases read
    exact ⟨⟨first, [], true⟩, fun _ => opens, rfl, rfl⟩
  | case3 first others continues ih =>
    rw [readNames, if_neg continues] at read
    obtain ⟨_, readLater, done⟩ := bind_eq_ok.mp read
    cases done
    obtain ⟨l, fits, named, rfl⟩ := ih readLater
    exact ⟨l.cons first .separator, fits, congrArg _ named, rfl⟩
  | case4 first others noAnd noSeparator =>
    rw [readNames] at read
    · cases read
      exact ⟨⟨first, [], false⟩, fun closed => absurd closed Bool.false_ne_true, rfl, rfl⟩
    · exact noAnd
    · exact noSeparator
  | case5 tokens noAnd noSeparator noName =>
    rw [readNames] at read
    · cases read
    all_goals assumption

theorem readNames_tokens {l : NameList} {rest : List NarrationToken} (fits : l.FitsBefore rest)
    (ends : EndsNames rest) : readNames (l.tokens ++ rest) = .ok (l.names, rest) := by
  obtain ⟨first, others, closed⟩ := l
  induction others generalizing first with
  | nil =>
    cases closed with
    | true =>
      change readNames (.name first :: .separator :: rest) = _
      rw [readNames, if_pos (fits rfl)]
      rfl
    | false =>
      change readNames (.name first :: rest) = _
      rw [readNames]
      · rfl
      all_goals
        rintro others rfl
        rcases ends with none | opens
        · cases none
        · cases opens
  | cons joined others ih =>
    obtain ⟨joiner, name⟩ := joined
    have later := ih name fits
    cases joiner with
    | andWord =>
      change readNames (.name first :: .keyword .andWord :: (NameList.tokens ⟨name, others, closed⟩ ++ rest)) = _
      rw [readNames, later]
      rfl
    | separator =>
      change readNames (.name first :: .separator :: (NameList.tokens ⟨name, others, closed⟩ ++ rest)) = _
      rw [readNames, if_neg (by exact Bool.false_ne_true), later]
      rfl

/-- The names behind a word, if it stands in the sentence. -/
def partTokens (word : NarrationKeyword) : Option NameList → List NarrationToken
  | none => []
  | some l => .keyword word :: l.tokens

def partNames : Option NameList → List String
  | none => []
  | some l => l.names

theorem exists_of_readPart {word : NarrationKeyword} {tokens rest : List NarrationToken} {names : List String}
    (read : readPart word tokens = .ok (names, rest)) : ∃ part : Option NameList,
      (∀ l ∈ part, l.FitsBefore rest) ∧ partNames part = names ∧ partTokens word part ++ rest = tokens := by
  unfold readPart at read
  split at read
  · split at read
    next same =>
      obtain ⟨l, fits, named, rfl⟩ := exists_of_readNames read
      exact ⟨some l, by rintro _ ⟨⟩; exact fits, named, by rw [same]; rfl⟩
    · cases read
      exact ⟨none, nofun, rfl, rfl⟩
  · cases read
    exact ⟨none, nofun, rfl, rfl⟩

theorem readPart_tokens {word : NarrationKeyword} {part : Option NameList} {rest : List NarrationToken}
    (fits : ∀ l ∈ part, l.FitsBefore rest) (ends : EndsNames rest) (other : rest.head? ≠ some (.keyword word)) :
    readPart word (partTokens word part ++ rest) = .ok (partNames part, rest) := by
  cases part with
  | some l =>
    change readPart word (.keyword word :: (l.tokens ++ rest)) = _
    rw [readPart, if_pos rfl, readNames_tokens (fits l rfl) ends]
    rfl
  | none =>
    change readPart word rest = _
    unfold readPart
    split
    · rw [if_neg (fun same => other (by rw [same]; rfl))]
      rfl
    · rfl

/-- What is concluded, and the names that support it. -/
structure Statement where
  concluded : NameList
  by' : Option NameList
  using' : Option NameList

namespace Statement

def supportTokens (s : Statement) : List NarrationToken := partTokens .byWord s.by' ++ partTokens .usingWord s.using'

def tokens (s : Statement) : List NarrationToken := s.concluded.tokens ++ s.supportTokens

def supports (s : Statement) : List String := partNames s.by' ++ partNames s.using'

/-- No list is closed but before `by` and `using`. -/
structure IsWellFormed (s : Statement) : Prop where
  concluded : s.concluded.FitsBefore s.supportTokens
  by' : ∀ l ∈ s.by', l.FitsBefore (partTokens .usingWord s.using')
  using' : ∀ l ∈ s.using', l.FitsBefore []

end Statement

theorem endsNames_partTokens {word : NarrationKeyword} (opens : opensPart [.keyword word] = true)
    (part : Option NameList) {rest : List NarrationToken} (ends : EndsNames rest) :
    EndsNames (partTokens word part ++ rest) := by
  cases part with
  | none => exact ends
  | some l => cases word <;> first | exact .inr rfl | cases opens

theorem exists_of_readConclusion {tokens : List NarrationToken} {r : List String × List String × List String}
    (read : readConclusion tokens = .ok r) : ∃ s : Statement, s.IsWellFormed ∧ s.tokens = tokens := by
  obtain ⟨⟨_, rest⟩, readFirst, others⟩ := bind_eq_ok.mp read
  obtain ⟨_, readRest, _⟩ := bind_eq_ok.mp others
  obtain ⟨⟨_, after⟩, readBy, behind⟩ := bind_eq_ok.mp readRest
  obtain ⟨⟨_, last⟩, readUsing, atEnd⟩ := bind_eq_ok.mp behind
  obtain ⟨concluded, concludedFits, _, rfl⟩ := exists_of_readNames readFirst
  obtain ⟨by', byFits, _, rfl⟩ := exists_of_readPart readBy
  obtain ⟨using', usingFits, _, rfl⟩ := exists_of_readPart readUsing
  dsimp only at atEnd
  split at atEnd
  · rw [List.append_nil] at concludedFits byFits ⊢
    exact ⟨⟨concluded, by', using'⟩, ⟨concludedFits, byFits, usingFits⟩, rfl⟩
  · cases atEnd

theorem readConclusion_tokens {s : Statement} (wellFormed : s.IsWellFormed) :
    readConclusion s.tokens = .ok (s.concluded.names, partNames s.by', partNames s.using') := by
  have afterUsing : EndsNames [] := .inl rfl
  have afterBy : EndsNames (partTokens .usingWord s.using' ++ []) := endsNames_partTokens rfl s.using' afterUsing
  have third : readPart .usingWord (partTokens .usingWord s.using' ++ []) = .ok (partNames s.using', []) :=
    readPart_tokens wellFormed.using' afterUsing nofun
  rw [List.append_nil] at afterBy third
  have first : readNames s.tokens = .ok (s.concluded.names, s.supportTokens) :=
    readNames_tokens wellFormed.concluded (endsNames_partTokens rfl s.by' afterBy)
  have second : readPart .byWord s.supportTokens = .ok (partNames s.by', partTokens .usingWord s.using') :=
    readPart_tokens wellFormed.by' afterBy (by cases s.using' <;> exact nofun)
  have tail : readTail s.supportTokens = .ok (partNames s.by', partNames s.using') :=
    bind_eq_ok.mpr ⟨_, second, bind_eq_ok.mpr ⟨_, third, rfl⟩⟩
  exact bind_eq_ok.mpr ⟨_, first, bind_eq_ok.mpr ⟨_, tail, rfl⟩⟩

/-- A sentence supposes something, gets something from premises, or states something that follows from the sentence
before it or plainly. -/
inductive SentenceForm where
  | suppose (supposed : NameList)
  | fromGet (premises : NameList) (statement : Statement)
  | therefore (statement : Statement)
  | plain (prefixed : Bool) (statement : Statement)

namespace SentenceForm

def tokens : SentenceForm → List NarrationToken
  | suppose supposed => .keyword .suppose :: supposed.tokens
  | fromGet premises statement =>
    .keyword .fromWord :: (premises.tokens ++ .keyword .get :: statement.tokens)
  | therefore statement => .keyword .therefore :: statement.tokens
  | plain true statement => .keyword .next :: statement.tokens
  | plain false statement => statement.tokens

/-- No list is closed but before `by`, `using` and `get`. -/
def IsWellFormed : SentenceForm → Prop
  | suppose supposed => supposed.FitsBefore []
  | fromGet premises statement =>
    premises.FitsBefore (.keyword .get :: statement.tokens) ∧ statement.IsWellFormed
  | therefore statement | plain _ statement => statement.IsWellFormed

/-- A plain sentence connects by what supports it, unless it starts with `next`. -/
def connective : SentenceForm → Connective
  | suppose _ => .suppose
  | fromGet .. => .fromGet
  | therefore _ => .therefore
  | plain true _ => .next
  | plain false statement =>
    if statement.by'.isSome then .byNames else if statement.using'.isSome then .usingNames else .next

/-- The names that the sentence builds on, where `previous` are the conclusions of the sentence before it. -/
def antecedents (previous : List String) : SentenceForm → List String
  | suppose _ => []
  | fromGet premises statement => premises.names ++ statement.supports
  | therefore statement => previous ++ statement.supports
  | plain _ statement => statement.supports

def conclusions : SentenceForm → List String
  | suppose supposed => supposed.names
  | fromGet _ statement | therefore statement | plain _ statement => statement.concluded.names

end SentenceForm

theorem exists_of_readSentence {previous : List String} {tokens : List NarrationToken}
    {r : Connective × List String × List String} (read : readSentence previous tokens = .ok r) :
    ∃ form : SentenceForm, form.IsWellFormed ∧ form.tokens = tokens := by
  unfold readSentence at read
  split at read
  next rest =>
    obtain ⟨⟨_, after⟩, readFirst, behind⟩ := bind_eq_ok.mp read
    obtain ⟨supposed, fits, _, rfl⟩ := exists_of_readNames readFirst
    dsimp only at behind
    split at behind
    · exact ⟨.suppose supposed, fits, by rw [List.append_nil]; rfl⟩
    · cases behind
  next rest =>
    obtain ⟨⟨_, after⟩, readFirst, behind⟩ := bind_eq_ok.mp read
    obtain ⟨premises, fits, _, rfl⟩ := exists_of_readNames readFirst
    dsimp only at behind
    split at behind
    · obtain ⟨_, readRest, _⟩ := bind_eq_ok.mp behind
      obtain ⟨statement, wellFormed, rfl⟩ := exists_of_readConclusion readRest
      exact ⟨.fromGet premises statement, ⟨fits, wellFormed⟩, rfl⟩
    · cases behind
  next rest =>
    obtain ⟨_, readRest, _⟩ := bind_eq_ok.mp read
    obtain ⟨statement, wellFormed, rfl⟩ := exists_of_readConclusion readRest
    exact ⟨.therefore statement, wellFormed, rfl⟩
  next rest =>
    obtain ⟨_, readRest, _⟩ := bind_eq_ok.mp read
    obtain ⟨statement, wellFormed, rfl⟩ := exists_of_readConclusion readRest
    exact ⟨.plain true statement, wellFormed, rfl⟩
  next rest =>
    obtain ⟨_, readRest, _⟩ := bind_eq_ok.mp read
    obtain ⟨statement, wellFormed, rfl⟩ := exists_of_readConclusion readRest
    exact ⟨.plain false statement, wellFormed, rfl⟩

theorem plainConnective_parts (s : Statement) :
    plainConnective (partNames s.by') (partNames s.using') = (SentenceForm.plain false s).connective := by
  obtain ⟨_, by', using'⟩ := s
  cases by' <;> cases using' <;> rfl

theorem readSentence_tokens {form : SentenceForm} (wellFormed : form.IsWellFormed) (previous : List String) :
    readSentence previous form.tokens = .ok (form.connective, form.antecedents previous, form.conclusions) := by
  cases form with
  | suppose supposed =>
    have names := readNames_tokens wellFormed (.inl rfl)
    rw [List.append_nil] at names
    exact bind_eq_ok.mpr ⟨_, names, rfl⟩
  | fromGet premises statement =>
    obtain ⟨fits, wellFormed⟩ := wellFormed
    refine bind_eq_ok.mpr ⟨_, readNames_tokens fits (.inr rfl), ?_⟩
    refine bind_eq_ok.mpr ⟨_, readConclusion_tokens wellFormed, ?_⟩
    dsimp only
    rw [List.append_assoc]
    rfl
  | therefore statement =>
    refine bind_eq_ok.mpr ⟨_, readConclusion_tokens wellFormed, ?_⟩
    dsimp only
    rw [List.append_assoc]
    rfl
  | plain prefixed statement =>
    cases prefixed with
    | true => exact bind_eq_ok.mpr ⟨_, readConclusion_tokens wellFormed, rfl⟩
    | false =>
      refine bind_eq_ok.mpr ⟨_, readConclusion_tokens wellFormed, ?_⟩
      rw [← plainConnective_parts]
      rfl

/-- The tokens of the sentence are those of the form. -/
def SentenceForm.IsOf (form : SentenceForm) (sentence : String) : Prop :=
  form.IsWellFormed ∧ narrationTokens sentence.toList = .ok form.tokens

/-- What the step of a sentence says: its number, its text, and what its form and the conclusions of the step before
it tell. -/
structure NarrationStep.Tells (step : NarrationStep) (index : Nat) (sentence : String) (previous : List String)
    (form : SentenceForm) : Prop where
  index : step.index = index
  sentence : step.sentence = sentence
  connective : step.connective = form.connective
  antecedents : IsOnceEach step.antecedents (form.antecedents previous)
  conclusions : IsOnceEach step.conclusions form.conclusions

theorem exists_of_readStep {index : Nat} {previous : List String} {sentence : String} {step : NarrationStep}
    (read : readStep index previous sentence = .ok step) : ∃ form : SentenceForm, form.IsOf sentence := by
  obtain ⟨_, readTokens, read⟩ := bind_eq_ok.mp read
  obtain ⟨_, read, _⟩ := bind_eq_ok.mp read
  obtain ⟨form, wellFormed, rfl⟩ := exists_of_readSentence read
  exact ⟨form, wellFormed, readTokens⟩

theorem exists_readStep {sentence : String} {form : SentenceForm} (isOf : form.IsOf sentence) (index : Nat)
    (previous : List String) :
    ∃ step, readStep index previous sentence = .ok step ∧ step.Tells index sentence previous form := by
  obtain ⟨wellFormed, readTokens⟩ := isOf
  have read : readStep index previous sentence = .ok ⟨index, sentence, form.connective,
      firstOccurrences (form.antecedents previous), firstOccurrences form.conclusions⟩ :=
    bind_eq_ok.mpr ⟨_, readTokens, bind_eq_ok.mpr ⟨_, readSentence_tokens wellFormed previous, rfl⟩⟩
  exact ⟨_, read, rfl, rfl, rfl, firstOccurrences_isOnceEach _, firstOccurrences_isOnceEach _⟩

theorem exists_readSteps_iff {owner : Path} {index : Nat} {previous sentences : List String} :
    (∃ steps, readSteps owner index previous sentences = .ok steps) ↔
      ∀ sentence ∈ sentences, ∃ form : SentenceForm, form.IsOf sentence := by
  induction sentences generalizing index previous with
  | nil => exact ⟨fun _ _ => (nomatch ·), fun _ => ⟨[], rfl⟩⟩
  | cons sentence sentences ih =>
    rw [List.forall_mem_cons, readSteps]
    constructor
    · rintro ⟨steps, read⟩
      split at read
      · cases read
      next step readFirst =>
        obtain ⟨others, readOthers, _⟩ := bind_eq_ok.mp read
        exact ⟨exists_of_readStep readFirst, ih.mp ⟨others, readOthers⟩⟩
    · rintro ⟨⟨form, isOf⟩, others⟩
      obtain ⟨step, readFirst, _⟩ := exists_readStep isOf index previous
      obtain ⟨later, readOthers⟩ := ih.mpr others
      rw [readFirst]
      exact ⟨step :: later, bind_eq_ok.mpr ⟨later, readOthers, rfl⟩⟩

/-- The steps tell the sentences one by one, each with the conclusions of the step before it. -/
theorem readSteps_tells {owner : Path} {index : Nat} {previous sentences : List String} {steps : List NarrationStep}
    (read : readSteps owner index previous sentences = .ok steps) : steps.length = sentences.length ∧
      ∀ (i : Nat) (step : NarrationStep), steps[i]? = some step → ∃ sentence before,
        sentences[i]? = some sentence ∧ (previous :: steps.map NarrationStep.conclusions)[i]? = some before ∧
        ∀ form : SentenceForm, form.IsOf sentence → step.Tells (index + i) sentence before form := by
  induction sentences generalizing index previous steps with
  | nil =>
    cases read
    exact ⟨rfl, nofun⟩
  | cons sentence sentences ih =>
    rw [readSteps] at read
    split at read
    · cases read
    next step readFirst =>
      obtain ⟨others, readOthers, done⟩ := bind_eq_ok.mp read
      cases done
      obtain ⟨length, tells⟩ := ih readOthers
      refine ⟨congrArg (· + 1) length, fun i step' atIndex => ?_⟩
      cases i with
      | zero =>
        cases atIndex
        refine ⟨sentence, previous, rfl, rfl, fun form isOf => ?_⟩
        obtain ⟨step', again, told⟩ := exists_readStep isOf index previous
        cases readFirst.symm.trans again
        exact told
      | succ i =>
        obtain ⟨sentence', before, inText, conclusions, tells⟩ := tells i step' atIndex
        refine ⟨sentence', before, inText, conclusions, fun form isOf => ?_⟩
        rw [Nat.add_comm i 1, ← Nat.add_assoc]
        exact tells form isOf

/-- A narration can be read just if each of its sentences has one of the forms.  Its steps are then those of its
sentences, counted from one: each tells what the form of its sentence does, and a sentence with `therefore` builds on
the conclusions of the step before it, the first one on none. -/
theorem parseNarration_tells (owner : Path) (text : String) :
    ((∃ steps, parseNarration owner text = .ok steps) ↔
      ∀ sentence ∈ splitSentences text, ∃ form : SentenceForm, form.IsOf sentence) ∧
    ∀ steps, parseNarration owner text = .ok steps → steps.length = (splitSentences text).length ∧
      ∀ (i : Nat) (step : NarrationStep), steps[i]? = some step → ∃ sentence before,
        (splitSentences text)[i]? = some sentence ∧
        ([] :: steps.map NarrationStep.conclusions)[i]? = some before ∧
        ∀ form : SentenceForm, form.IsOf sentence → step.Tells (i + 1) sentence before form := by
  refine ⟨exists_readSteps_iff, fun steps read => ?_⟩
  simpa only [Nat.add_comm 1] using readSteps_tells read

/-- A list that is closed before `by`, and one that runs on. -/
def closedForm : SentenceForm :=
  .therefore ⟨⟨"C", [], true⟩, some ⟨"A", [(.separator, "B"), (.andWord, "S")], false⟩, none⟩

theorem parseNarration_tells_closedForm :
    ∃ step, parseNarration (.single "P") "Suppose S. So C, by A; B and S." =
        .ok [⟨1, "Suppose S", .suppose, [], ["S"]⟩, step] ∧
      step.antecedents = ["S", "A", "B"] ∧ step.Tells 2 "So C, by A; B and S" ["S"] closedForm := by
  have read : parseNarration (.single "P") "Suppose S. So C, by A; B and S." =
      .ok [⟨1, "Suppose S", .suppose, [], ["S"]⟩,
        ⟨2, "So C, by A; B and S", .therefore, ["S", "A", "B"], ["C"]⟩] := by decide +kernel
  refine ⟨_, read, rfl, ?_⟩
  have second : (splitSentences "Suppose S. So C, by A; B and S.")[1]? = some "So C, by A; B and S" := by
    decide +kernel
  have isOf : closedForm.IsOf "So C, by A; B and S" :=
    ⟨⟨fun _ => rfl, by rintro _ ⟨⟩; exact nofun, nofun⟩, by decide +kernel⟩
  obtain ⟨_, _, inText, before, tells⟩ := ((parseNarration_tells _ _).2 _ read).2 1 _ rfl
  cases second.symm.trans inText
  cases before
  exact tells closedForm isOf

end Deductions
