import Deductions.Narration
import Deductions.Text.Blank

namespace Deductions

/-- The words that structure a sentence. -/
inductive NarrationKeyword where
  | suppose
  | fromWord
  | get
  | therefore
  | next
  | byWord
  | usingWord
  | andWord
deriving DecidableEq

inductive NarrationToken where
  | keyword (word : NarrationKeyword)
  | name (text : String)
  | separator
deriving DecidableEq

namespace NarrationKeyword

/-- The spelling by which messages name the word. -/
def text : NarrationKeyword → String
  | .suppose => "suppose"
  | .fromWord => "from"
  | .get => "get"
  | .therefore => "therefore"
  | .next => "next"
  | .byWord => "by"
  | .usingWord => "using"
  | .andWord => "and"

/-- The word of a spelling, whose case does not count. -/
def ofText? (word : String) : Option NarrationKeyword :=
  match String.ofList (word.toList.map Char.toLower) with
  | "suppose" | "let" => some .suppose
  | "from" => some .fromWord
  | "get" | "infer" | "obtain" => some .get
  | "therefore" | "hence" | "thus" | "so" | "then" => some .therefore
  | "next" | "now" => some .next
  | "by" => some .byWord
  | "using" => some .usingWord
  | "and" => some .andWord
  | _ => none

end NarrationKeyword

/-- Why a sentence has none of the forms. -/
inductive NarrationFault where
  | invalidName (word : String)
  | unexpectedText (c : Char)
  | expectedName (found : Option NarrationToken)
  | expectedGet (found : Option NarrationToken)
  | unexpected (found : NarrationToken)
deriving DecidableEq

def NarrationToken.describe : NarrationToken → String
  | .keyword word => s!"'{word.text}'"
  | .name text => s!"'{text}'"
  | .separator => "separator"

namespace NarrationFault

def found (token : Option NarrationToken) : String :=
  (token.map NarrationToken.describe).getD "end of sentence"

def message : NarrationFault → String
  | .invalidName word => s!"'{word}' is not a valid node name"
  | .unexpectedText c => s!"unexpected text '{c}'"
  | .expectedName token => "expected a node name, found " ++ found token
  | .expectedGet token => "expected 'get' after 'from', found " ++ found token
  | .unexpected token => "unexpected " ++ token.describe

end NarrationFault

/-- A sentence of the narration of `node` that has none of the forms. -/
structure NarrationError where
  node : Path
  sentence : String
  fault : NarrationFault
deriving DecidableEq

def NarrationError.message (e : NarrationError) : String :=
  s!"narration of {e.node}: {e.fault.message} in sentence \"{e.sentence}\""

/-- The blank characters of ASCII that end a sentence behind its period. -/
def endsSentence : List Char → Bool
  | [] => true
  | c :: _ => c == ' ' || c == '\t' || c == '\n' || c == '\r' || c == '\x0c'

/-- The text cut at every period that the end of the text or a blank character of ASCII follows. -/
def cutSentences : List Char → List (List Char)
  | [] => [[]]
  | c :: rest =>
    if c = '.' && endsSentence rest then [] :: cutSentences rest
    else
      match cutSentences rest with
      | [] => [[c]]
      | sentence :: others => (c :: sentence) :: others

/-- The sentences of a narration, trimmed; what is blank is no sentence. -/
def splitSentences (text : String) : List String :=
  (((cutSentences text.toList).map trimBlank).filter fun s => !s.isEmpty).map String.ofList

def isNameStart (c : Char) : Bool := c.isAlpha || c == '_'

def isNameRest (c : Char) : Bool := c.isAlphanum || c == '_' || c == '.'

/-- The token that a word is. -/
def NarrationToken.ofWord (word : String) : Except NarrationFault NarrationToken :=
  match NarrationKeyword.ofText? word with
  | some found => .ok (.keyword found)
  | none =>
    match Path.parse word with
    | .ok _ => .ok (.name word)
    | .error _ => .error (.invalidName word)

/-- The tokens of a sentence. -/
def narrationTokens : List Char → Except NarrationFault (List NarrationToken)
  | [] => .ok []
  | c :: rest =>
    if isBlank c then narrationTokens rest
    else if c = ',' || c = ';' then do return .separator :: (← narrationTokens rest)
    else if isNameStart c then do
      let token ← NarrationToken.ofWord (String.ofList (c :: rest.takeWhile isNameRest))
      return token :: (← narrationTokens (rest.dropWhile isNameRest))
    else .error (.unexpectedText c)
termination_by text => text.length
decreasing_by
  · simp
  · simp
  · have := (List.dropWhile_sublist (l := rest) isNameRest).length_le
    simp only [List.length_cons]
    omega

/-- Whether the next word opens a further part of the sentence. -/
def opensPart : List NarrationToken → Bool
  | .keyword .byWord :: _ | .keyword .usingWord :: _ | .keyword .get :: _ => true
  | _ => false

/-- Names joined by `and` or by separators. A separator may also close the list where a further part
of the sentence follows it. -/
def readNames : List NarrationToken → Except NarrationFault (List String × List NarrationToken)
  | .name first :: .keyword .andWord :: rest => do
    let (names, rest) ← readNames rest
    return (first :: names, rest)
  | .name first :: .separator :: rest =>
    if opensPart rest then .ok ([first], rest)
    else do
      let (names, rest) ← readNames rest
      return (first :: names, rest)
  | .name first :: rest => .ok ([first], rest)
  | tokens => .error (.expectedName tokens.head?)

/-- The names behind `word`, none where the word does not follow. -/
def readPart (word : NarrationKeyword) :
    List NarrationToken → Except NarrationFault (List String × List NarrationToken)
  | .keyword found :: rest =>
    if found = word then readNames rest else .ok ([], .keyword found :: rest)
  | tokens => .ok ([], tokens)

/-- What comes last in a sentence: names behind `by`, names behind `using`, and the end. -/
def readTail (tokens : List NarrationToken) :
    Except NarrationFault (List String × List String) := do
  let (by', tokens) ← readPart .byWord tokens
  let (using', tokens) ← readPart .usingWord tokens
  match tokens with
  | [] => return (by', using')
  | token :: _ => throw (.unexpected token)

/-- The concluded names, those behind `by` and those behind `using`. -/
def readConclusion (tokens : List NarrationToken) :
    Except NarrationFault (List String × List String × List String) := do
  let (concluded, tokens) ← readNames tokens
  let (by', using') ← readTail tokens
  return (concluded, by', using')

/-- How a plain sentence connects: by what supports its conclusion. -/
def plainConnective (by' using' : List String) : Connective :=
  if !by'.isEmpty then .byNames else if !using'.isEmpty then .usingNames else .next

/-- The connective, the antecedents and the conclusions of a sentence. `previous` are the
conclusions of the sentence before it. -/
def readSentence (previous : List String) (tokens : List NarrationToken) :
    Except NarrationFault (Connective × List String × List String) :=
  match tokens with
  | .keyword .suppose :: rest => do
    let (supposed, rest) ← readNames rest
    match rest with
    | [] => return (.suppose, [], supposed)
    | token :: _ => throw (.unexpected token)
  | .keyword .fromWord :: rest => do
    let (premises, rest) ← readNames rest
    match rest with
    | .keyword .get :: rest =>
      let (concluded, by', using') ← readConclusion rest
      return (.fromGet, premises ++ by' ++ using', concluded)
    | rest => throw (.expectedGet rest.head?)
  | .keyword .therefore :: rest => do
    let (concluded, by', using') ← readConclusion rest
    return (.therefore, previous ++ by' ++ using', concluded)
  | .keyword .next :: rest => do
    let (concluded, by', using') ← readConclusion rest
    return (.next, by' ++ using', concluded)
  | rest => do
    let (concluded, by', using') ← readConclusion rest
    return (plainConnective by' using', by' ++ using', concluded)

def readStep (index : Nat) (previous : List String) (sentence : String) :
    Except NarrationFault NarrationStep := do
  let (connective, antecedents, conclusions) ←
    readSentence previous (← narrationTokens sentence.toList)
  return ⟨index, sentence, connective, firstOccurrences antecedents, firstOccurrences conclusions⟩

/-- Reads sentences of the narration of `owner`, the first of which is number `index`. -/
def readSteps (owner : Path) :
    Nat → List String → List String → Except NarrationError (List NarrationStep)
  | _, _, [] => .ok []
  | index, previous, sentence :: rest =>
    match readStep index previous sentence with
    | .error fault => .error ⟨owner, sentence, fault⟩
    | .ok step => do
      return step :: (← readSteps owner (index + 1) step.conclusions rest)

/-- Reads the narration of `owner`. -/
def parseNarration (owner : Path) (text : String) : Except NarrationError (List NarrationStep) :=
  readSteps owner 1 [] (splitSentences text)

end Deductions
