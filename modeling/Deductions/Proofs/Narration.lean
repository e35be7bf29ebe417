import Deductions.Narration.Reader
import Deductions.Proofs.FirstOccurrence
import Deductions.Proofs.Source.Accepted

namespace Deductions

/-- All of them can be taken for paths. -/
def AreNames (names : List String) : Prop := ∀ text ∈ names, ∃ path, Path.parse text = .ok path

/-- The names among the tokens can be taken for paths. -/
def HaveNames (tokens : List NarrationToken) : Prop := ∀ text, .name text ∈ tokens → ∃ path, Path.parse text = .ok path

theorem AreNames.append {names names' : List String} (first : AreNames names) (second : AreNames names') :
    AreNames (names ++ names') := List.forall_mem_append.mpr ⟨first, second⟩

theorem AreNames.firstOccurrences {names : List String} (areNames : AreNames names) :
    AreNames (firstOccurrences names) := fun text member => areNames text (mem_firstOccurrences.mp member)

theorem areNames_nil : AreNames [] := fun _ member => nomatch member

theorem HaveNames.tail {token : NarrationToken} {tokens : List NarrationToken}
    (haveNames : HaveNames (token :: tokens)) : HaveNames tokens :=
  fun text member => haveNames text (List.mem_cons_of_mem _ member)

theorem NarrationToken.haveNames_ofWord {word : String} {token : NarrationToken} (read : ofWord word = .ok token)
    {tokens : List NarrationToken} (haveNames : HaveNames tokens) : HaveNames (token :: tokens) := by
  intro text member
  rcases List.mem_cons.mp member with rfl | member
  · rw [ofWord] at read
    split at read
    · cases read
    · split at read
      next path parsed =>
        cases read
        exact ⟨path, parsed⟩
      · cases read
  · exact haveNames text member

theorem haveNames_narrationTokens {text : List Char} {tokens : List NarrationToken}
    (read : narrationTokens text = .ok tokens) : HaveNames tokens := by
  induction text using narrationTokens.induct generalizing tokens with
  | case1 =>
    unfold narrationTokens at read
    cases read
    exact fun _ member => nomatch member
  | case2 c rest blank ih =>
    unfold narrationTokens at read
    rw [if_pos blank] at read
    exact ih read
  | case3 c rest notBlank separates ih =>
    unfold narrationTokens at read
    rw [if_neg notBlank, if_pos separates] at read
    obtain ⟨others, readOthers, done⟩ := bind_eq_ok.mp read
    cases done
    intro name member
    exact ih readOthers name ((List.mem_cons.mp member).resolve_left nofun)
  | case4 c rest notBlank noSeparator starts ih =>
    unfold narrationTokens at read
    rw [if_neg notBlank, if_neg noSeparator, if_pos starts] at read
    obtain ⟨token, readToken, read⟩ := bind_eq_ok.mp read
    obtain ⟨others, readOthers, done⟩ := bind_eq_ok.mp read
    cases done
    exact NarrationToken.haveNames_ofWord readToken (ih readOthers)
  | case5 c rest notBlank noSeparator noName =>
    unfold narrationTokens at read
    rw [if_neg notBlank, if_neg noSeparator, if_neg noName] at read
    cases read

theorem areNames_readNames {tokens rest : List NarrationToken} {names : List String} (haveNames : HaveNames tokens)
    (read : readNames tokens = .ok (names, rest)) : AreNames names ∧ HaveNames rest := by
  have cons : ∀ {first : String} {tokens : List NarrationToken} {names : List String},
      HaveNames (.name first :: tokens) → AreNames names → AreNames (first :: names) :=
    fun haveNames areNames => List.forall_mem_cons.mpr ⟨haveNames _ List.mem_cons_self, areNames⟩
  induction tokens using readNames.induct generalizing names rest with
  | case1 first others ih =>
    rw [readNames] at read
    obtain ⟨⟨later, after⟩, readLater, done⟩ := bind_eq_ok.mp read
    cases done
    obtain ⟨areNames, haveRest⟩ := ih haveNames.tail.tail readLater
    exact ⟨cons haveNames areNames, haveRest⟩
  | case2 first others opens =>
    rw [readNames, if_pos opens] at read
    cases read
    exact ⟨cons haveNames areNames_nil, haveNames.tail.tail⟩
  | case3 first others continues ih =>
    rw [readNames, if_neg continues] at read
    obtain ⟨⟨later, after⟩, readLater, done⟩ := bind_eq_ok.mp read
    cases done
    obtain ⟨areNames, haveRest⟩ := ih haveNames.tail.tail readLater
    exact ⟨cons haveNames areNames, haveRest⟩
  | case4 first others noAnd noSeparator =>
    rw [readNames] at read
    · cases read
      exact ⟨cons haveNames areNames_nil, haveNames.tail⟩
    · exact noAnd
    · exact noSeparator
  | case5 tokens noAnd noSeparator noName =>
    rw [readNames] at read
    · cases read
    all_goals assumption

theorem areNames_readPart {word : NarrationKeyword} {tokens rest : List NarrationToken} {names : List String}
    (haveNames : HaveNames tokens) (read : readPart word tokens = .ok (names, rest)) :
    AreNames names ∧ HaveNames rest := by
  unfold readPart at read
  split at read
  · split at read
    · exact areNames_readNames haveNames.tail read
    · cases read
      exact ⟨areNames_nil, haveNames⟩
  · cases read
    exact ⟨areNames_nil, haveNames⟩

theorem areNames_readTail {tokens : List NarrationToken} {by' using' : List String} (haveNames : HaveNames tokens)
    (read : readTail tokens = .ok (by', using')) : AreNames by' ∧ AreNames using' := by
  obtain ⟨⟨first, rest⟩, readFirst, read⟩ := bind_eq_ok.mp read
  obtain ⟨⟨second, rest'⟩, readSecond, read⟩ := bind_eq_ok.mp read
  obtain ⟨areFirst, haveRest⟩ := areNames_readPart haveNames readFirst
  obtain ⟨areSecond, _⟩ := areNames_readPart haveRest readSecond
  dsimp only at read
  split at read
  · cases read
    exact ⟨areFirst, areSecond⟩
  · cases read

theorem areNames_readConclusion {tokens : List NarrationToken} {concluded by' using' : List String}
    (haveNames : HaveNames tokens) (read : readConclusion tokens = .ok (concluded, by', using')) :
    AreNames concluded ∧ AreNames by' ∧ AreNames using' := by
  obtain ⟨⟨names, rest⟩, readFirst, read⟩ := bind_eq_ok.mp read
  obtain ⟨⟨first, second⟩, readRest, done⟩ := bind_eq_ok.mp read
  cases done
  obtain ⟨areNames, haveRest⟩ := areNames_readNames haveNames readFirst
  exact ⟨areNames, areNames_readTail haveRest readRest⟩

/-- A sentence takes its names from its tokens and from the sentence before. -/
theorem areNames_readSentence {previous : List String} (before : AreNames previous) {tokens : List NarrationToken}
    (haveNames : HaveNames tokens) {connective : Connective} {antecedents conclusions : List String}
    (read : readSentence previous tokens = .ok (connective, antecedents, conclusions)) :
    AreNames antecedents ∧ AreNames conclusions := by
  unfold readSentence at read
  split at read
  next rest =>
    obtain ⟨⟨supposed, rest'⟩, readFirst, read⟩ := bind_eq_ok.mp read
    dsimp only at read
    split at read
    · cases read
      exact ⟨areNames_nil, (areNames_readNames haveNames.tail readFirst).1⟩
    · cases read
  next rest =>
    obtain ⟨⟨premises, rest'⟩, readFirst, read⟩ := bind_eq_ok.mp read
    obtain ⟨arePremises, haveRest⟩ := areNames_readNames haveNames.tail readFirst
    dsimp only at read
    split at read
    · obtain ⟨⟨concluded, by', using'⟩, readRest, done⟩ := bind_eq_ok.mp read
      cases done
      obtain ⟨areConcluded, areBy, areUsing⟩ := areNames_readConclusion haveRest.tail readRest
      exact ⟨(arePremises.append areBy).append areUsing, areConcluded⟩
    · cases read
  next rest =>
    obtain ⟨⟨concluded, by', using'⟩, readRest, done⟩ := bind_eq_ok.mp read
    cases done
    obtain ⟨areConcluded, areBy, areUsing⟩ := areNames_readConclusion haveNames.tail readRest
    exact ⟨(before.append areBy).append areUsing, areConcluded⟩
  next rest =>
    obtain ⟨⟨concluded, by', using'⟩, readRest, done⟩ := bind_eq_ok.mp read
    cases done
    obtain ⟨areConcluded, areBy, areUsing⟩ := areNames_readConclusion haveNames.tail readRest
    exact ⟨areBy.append areUsing, areConcluded⟩
  next rest =>
    obtain ⟨⟨concluded, by', using'⟩, readRest, done⟩ := bind_eq_ok.mp read
    cases done
    obtain ⟨areConcluded, areBy, areUsing⟩ := areNames_readConclusion haveNames readRest
    exact ⟨areBy.append areUsing, areConcluded⟩

theorem areNames_readStep {index : Nat} {previous : List String} (before : AreNames previous) {sentence : String}
    {step : NarrationStep} (read : readStep index previous sentence = .ok step) :
    step.index = index ∧ AreNames step.antecedents ∧ AreNames step.conclusions := by
  obtain ⟨tokens, readTokens, read⟩ := bind_eq_ok.mp read
  obtain ⟨⟨connective, antecedents, conclusions⟩, readSentence, done⟩ := bind_eq_ok.mp read
  cases done
  obtain ⟨areAntecedents, areConclusions⟩ :=
    areNames_readSentence before (haveNames_narrationTokens readTokens) readSentence
  exact ⟨rfl, areAntecedents.firstOccurrences, areConclusions.firstOccurrences⟩

theorem readSteps_sound {owner : Path} {index : Nat} {previous sentences : List String} (before : AreNames previous)
    {steps : List NarrationStep} (read : readSteps owner index previous sentences = .ok steps) :
    steps.map NarrationStep.index = List.range' index steps.length ∧
      ∀ step ∈ steps, AreNames step.antecedents ∧ AreNames step.conclusions := by
  induction sentences generalizing index previous steps with
  | nil =>
    cases read
    exact ⟨rfl, fun _ member => nomatch member⟩
  | cons sentence sentences ih =>
    rw [readSteps] at read
    split at read
    · cases read
    next step readFirst =>
      obtain ⟨others, readOthers, done⟩ := bind_eq_ok.mp read
      cases done
      obtain ⟨own, areAntecedents, areConclusions⟩ := areNames_readStep before readFirst
      obtain ⟨indices, areNames⟩ := ih areConclusions readOthers
      refine ⟨?_, List.forall_mem_cons.mpr ⟨⟨areAntecedents, areConclusions⟩, areNames⟩⟩
      rw [List.map_cons, List.length_cons, List.range'_succ, own, indices]

/-- The sentences of a narration are counted from one, and have names that are paths. -/
theorem parseNarration_sound {owner : Path} {text : String} {steps : List NarrationStep}
    (read : parseNarration owner text = .ok steps) : steps.map NarrationStep.index = List.range' 1 steps.length ∧
      ∀ step ∈ steps, AreNames step.antecedents ∧ AreNames step.conclusions := readSteps_sound areNames_nil read

end Deductions
