import Deductions.Kind
import Deductions.Source.Span

namespace Deductions

inductive Token where
  | block (kind : NodeKind)
  | importWord
  | fromWord
  | asWord
  | ofWord
  | onWord
  | versusWord
  | contraWord
  | wologWord
  | openBrace
  | closeBrace
  | equals
  | comma
  | dot
  | star
  | identifier (name : String)
  /-- What stands between the quotes, escapes as written. -/
  | string (body : List Char)
  /-- What stands between the two `@@@`. -/
  | raw (body : List Char)
deriving DecidableEq

/-- A token with the places where it starts and ends. -/
structure Lexeme where
  token : Token
  start : Nat
  stop : Nat
deriving DecidableEq

/-- Why no token starts at a place. -/
inductive TokenFault where
  | unterminatedRaw
  | unterminatedString
  | unexpected (c : Char)
deriving DecidableEq

namespace Token

/-- How a message names the token. -/
def describe : Token → String
  | .block kind => s!"keyword '{kind.keyword}'"
  | .importWord => "'import'"
  | .fromWord => "'from'"
  | .asWord => "'as'"
  | .ofWord => "'of'"
  | .onWord => "'on'"
  | .versusWord => "'versus'"
  | .contraWord => "'contra'"
  | .wologWord => "'wolog'"
  | .openBrace => "'\x7b'"
  | .closeBrace => "'\x7d'"
  | .equals => "'='"
  | .comma => "','"
  | .dot => "'.'"
  | .star => "'*'"
  | .identifier name => s!"identifier '{name}'"
  | .string _ => "string"
  | .raw _ => "raw block"

/-- The token as it is written. -/
def written : Token → List Char
  | .block kind => kind.keyword.toList
  | .importWord => "import".toList
  | .fromWord => "from".toList
  | .asWord => "as".toList
  | .ofWord => "of".toList
  | .onWord => "on".toList
  | .versusWord => "versus".toList
  | .contraWord => "contra".toList
  | .wologWord => "wolog".toList
  | .openBrace => ['\x7b']
  | .closeBrace => ['\x7d']
  | .equals => ['=']
  | .comma => [',']
  | .dot => ['.']
  | .star => ['*']
  | .identifier name => name.toList
  | .string body => '"' :: body ++ ['"']
  | .raw body => '@' :: '@' :: '@' :: body ++ ['@', '@', '@']

def isWordStart (c : Char) : Bool := c.isAlpha || c == '_'

def isWordRest (c : Char) : Bool := c.isAlphanum || c == '_'

/-- The blank characters between tokens. -/
def isLayout (c : Char) : Bool :=
  c == ' ' || c == '\t' || c == '\r' || c == '\n' || c == '\x0c'

/-- The token that a whole word is. -/
def ofWordText (word : String) : Token :=
  match word with
  | "import" => .importWord
  | "from" => .fromWord
  | "as" => .asWord
  | "of" => .ofWord
  | "on" => .onWord
  | "versus" => .versusWord
  | "contra" => .contraWord
  | "wolog" => .wologWord
  | word =>
    match NodeKind.ofKeyword? word with
    | some kind => .block kind
    | none => .identifier word

def ofMark? (c : Char) : Option Token :=
  if c = '\x7b' then some .openBrace
  else if c = '\x7d' then some .closeBrace
  else if c = '=' then some .equals
  else if c = ',' then some .comma
  else if c = '.' then some .dot
  else if c = '*' then some .star
  else none

/-- The text up to the next quote that no backslash precedes, and what follows that quote. A
backslash takes the next character with it, which is no line end. -/
def splitString : List Char → Option (List Char × List Char)
  | [] => none
  | '"' :: rest => some ([], rest)
  | '\\' :: c :: rest =>
    if c = '\n' then none
    else (splitString rest).map fun parts => ('\\' :: c :: parts.1, parts.2)
  | c :: rest =>
    if c = '\\' then none else (splitString rest).map fun parts => (c :: parts.1, parts.2)

/-- The text up to the next `@@@`, and what follows that. -/
def splitRaw : List Char → Option (List Char × List Char)
  | [] => none
  | '@' :: '@' :: '@' :: rest => some ([], rest)
  | c :: rest => (splitRaw rest).map fun parts => (c :: parts.1, parts.2)

/-- The token at the start of a text, and what follows it. -/
def scan : List Char → Except TokenFault (Token × List Char)
  | [] => .error (.unexpected ' ')
  | '"' :: rest =>
    match splitString rest with
    | some (body, rest) => .ok (.string body, rest)
    | none => .error .unterminatedString
  | '@' :: '@' :: '@' :: rest =>
    match splitRaw rest with
    | some (body, rest) => .ok (.raw body, rest)
    | none => .error .unterminatedRaw
  | c :: rest =>
    if isWordStart c then
      .ok (ofWordText (String.ofList (c :: rest.takeWhile isWordRest)), rest.dropWhile isWordRest)
    else
      match ofMark? c with
      | some token => .ok (token, rest)
      | none => .error (.unexpected c)

theorem splitString_length {text : List Char} {parts : List Char × List Char}
    (split : splitString text = some parts) : parts.2.length < text.length := by
  fun_induction splitString text generalizing parts with
  | case1 => simp at split
  | case2 rest =>
    simp only [Option.some.injEq] at split
    simp [← split]
  | case3 => simp at split
  | case4 c rest _ ih =>
    obtain ⟨inner, found, rfl⟩ := Option.map_eq_some_iff.mp split
    have := ih found
    simp only [List.length_cons]
    omega
  | case5 => simp at split
  | case6 c rest _ _ _ ih =>
    obtain ⟨inner, found, rfl⟩ := Option.map_eq_some_iff.mp split
    have := ih found
    simp only [List.length_cons]
    omega

theorem splitRaw_length {text : List Char} {parts : List Char × List Char}
    (split : splitRaw text = some parts) : parts.2.length < text.length := by
  fun_induction splitRaw text generalizing parts with
  | case1 => simp at split
  | case2 rest =>
    simp only [Option.some.injEq] at split
    simp only [← split, List.length_cons]
    omega
  | case3 c rest _ ih =>
    obtain ⟨inner, found, rfl⟩ := Option.map_eq_some_iff.mp split
    have := ih found
    simp only [List.length_cons]
    omega

theorem scan_length {text rest : List Char} {token : Token}
    (scanned : scan text = .ok (token, rest)) :
    rest.length < text.length := by
  unfold scan at scanned
  split at scanned
  · simp at scanned
  · split at scanned
    next body after found =>
      have := splitString_length found
      simp_all only [Except.ok.injEq, Prod.mk.injEq, List.length_cons]
      omega
    · simp at scanned
  · split at scanned
    next body after found =>
      have := splitRaw_length found
      simp_all only [Except.ok.injEq, Prod.mk.injEq, List.length_cons]
      omega
    · simp at scanned
  next c others _ _ =>
    split at scanned
    · simp only [Except.ok.injEq, Prod.mk.injEq] at scanned
      have := (List.dropWhile_sublist (l := others) isWordRest).length_le
      rw [← scanned.2, List.length_cons]
      omega
    · split at scanned
      · simp only [Except.ok.injEq, Prod.mk.injEq] at scanned
        simp [← scanned.2]
      · simp at scanned

end Token

/-- The tokens of a text: those before the first place where none can be read, that place, and what
is wrong there. -/
structure Lexemes where
  lexemes : List Lexeme
  /-- The place after the last character. -/
  stop : Nat
  fault : Option TokenFault
deriving DecidableEq

/-- Reads the tokens of `text`, which starts at `here`. -/
def Lexemes.read (here : Nat) : List Char → Lexemes
  | [] => ⟨[], here, none⟩
  | c :: rest =>
    if Token.isLayout c then Lexemes.read (here + c.utf8Size) rest
    else if c = '#' then
      Lexemes.read (offsetAfter here (c :: rest.takeWhile (· != '\n'))) (rest.dropWhile (· != '\n'))
    else
      match _scanned : Token.scan (c :: rest) with
      | .error fault => ⟨[], here, some fault⟩
      | .ok (token, others) =>
        let stop := offsetAfter here token.written
        let after := Lexemes.read stop others
        { after with lexemes := ⟨token, here, stop⟩ :: after.lexemes }
termination_by text => text.length
decreasing_by
  · simp
  · have := (List.dropWhile_sublist (l := rest) (· != '\n')).length_le
    simp only [List.length_cons]
    omega
  · exact Token.scan_length (by assumption)

/-- The tokens of a whole text. -/
def Lexemes.ofText (text : String) : Lexemes := Lexemes.read 0 text.toList

end Deductions
