import Deductions.Text.HexDigit
import Deductions.Toml

namespace Deductions

namespace Toml

/-- Whether the character can stand in a string or in a comment. -/
def isTextChar (c : Char) : Bool := c == '\t' || (32 ≤ c.toNat && c.toNat != 127)

def isBlankChar (c : Char) : Bool := c == ' ' || c == '\t'

def skipBlanks (text : List Char) : List Char := text.dropWhile isBlankChar

/-- What follows a line break. -/
def readNewline : List Char → Option (List Char)
  | '\n' :: rest => some rest
  | '\r' :: '\n' :: rest => some rest
  | _ => none

/-- The text without a line break at its start. -/
def skipNewline (text : List Char) : List Char := (readNewline text).getD text

/-- The text without the blanks and line breaks at its start. -/
def skipLines : List Char → List Char
  | '\n' :: rest => skipLines rest
  | '\r' :: '\n' :: rest => skipLines rest
  | c :: rest => if isBlankChar c then skipLines rest else c :: rest
  | [] => []

/-- The character whose number the first `n` characters write. -/
def readScalar (n : Nat) (text : List Char) : Option (Char × List Char) := do
  let value ← hexNumber? (text.take n)
  if n ≤ text.length && value.isValidChar then some (Char.ofNat value, text.drop n) else none

/-- The character of an escape, behind its backslash. -/
def readEscape : List Char → Option (Char × List Char)
  | 'b' :: rest => some ('\x08', rest)
  | 't' :: rest => some ('\t', rest)
  | 'n' :: rest => some ('\n', rest)
  | 'f' :: rest => some ('\x0c', rest)
  | 'r' :: rest => some ('\r', rest)
  | '"' :: rest => some ('"', rest)
  | '\\' :: rest => some ('\\', rest)
  | 'u' :: rest => readScalar 4 rest
  | 'U' :: rest => readScalar 8 rest
  | _ => none

/-- A string with escapes, behind its quote. The fuel bounds its characters. -/
def readBasic : Nat → List Char → Option (List Char × List Char)
  | 0, _ => none
  | _, [] => none
  | _, '"' :: rest => some ([], rest)
  | fuel + 1, '\\' :: rest => do
    let (c, rest) ← readEscape rest
    let (s, rest) ← readBasic fuel rest
    return (c :: s, rest)
  | fuel + 1, c :: rest =>
    if isTextChar c then do
      let (s, rest) ← readBasic fuel rest
      return (c :: s, rest)
    else none

/-- A string without escapes, behind its quote. -/
def readLiteral : List Char → Option (List Char × List Char)
  | [] => none
  | '\x27' :: rest => some ([], rest)
  | c :: rest =>
    if isTextChar c then do
      let (s, rest) ← readLiteral rest
      return (c :: s, rest)
    else none

/-- What follows a backslash at the end of a line, and the blanks and line breaks after it. -/
def readContinuation (text : List Char) : Option (List Char) :=
  (readNewline (skipBlanks text)).map skipLines

/-- A string over several lines with escapes, behind its quotes. The last of three quotes in a row
closes it, except that two more may stand right before them. -/
def readBasicLines : Nat → List Char → Option (List Char × List Char)
  | 0, _ => none
  | _, [] => none
  | _, '"' :: '"' :: '"' :: '"' :: '"' :: rest => some (['"', '"'], rest)
  | _, '"' :: '"' :: '"' :: '"' :: rest => some (['"'], rest)
  | _, '"' :: '"' :: '"' :: rest => some ([], rest)
  | fuel + 1, '\\' :: rest =>
    match readContinuation rest with
    | some rest => readBasicLines fuel rest
    | none => do
      let (c, rest) ← readEscape rest
      let (s, rest) ← readBasicLines fuel rest
      return (c :: s, rest)
  | fuel + 1, c :: rest =>
    match readNewline (c :: rest) with
    | some rest => do
      let (s, rest) ← readBasicLines fuel rest
      return ('\n' :: s, rest)
    | none =>
      if isTextChar c then do
        let (s, rest) ← readBasicLines fuel rest
        return (c :: s, rest)
      else none

/-- A string over several lines without escapes, behind its quotes. -/
def readLiteralLines : List Char → Option (List Char × List Char)
  | '\x27' :: '\x27' :: '\x27' :: '\x27' :: '\x27' :: rest => some (['\x27', '\x27'], rest)
  | '\x27' :: '\x27' :: '\x27' :: '\x27' :: rest => some (['\x27'], rest)
  | '\x27' :: '\x27' :: '\x27' :: rest => some ([], rest)
  | '\r' :: '\n' :: rest => do
    let (s, rest) ← readLiteralLines rest
    return ('\n' :: s, rest)
  | c :: rest =>
    if c == '\n' || isTextChar c then do
      let (s, rest) ← readLiteralLines rest
      return (c :: s, rest)
    else none
  | [] => none

/-- A string in one of its four forms. A line break right behind the quotes of a form over several
lines does not count. -/
def readQuoted : List Char → Option (List Char × List Char)
  | '"' :: '"' :: '"' :: rest => readBasicLines (rest.length + 1) (skipNewline rest)
  | '"' :: rest => readBasic (rest.length + 1) rest
  | '\x27' :: '\x27' :: '\x27' :: rest => readLiteralLines (skipNewline rest)
  | '\x27' :: rest => readLiteral rest
  | _ => none

/-- Whether the character can only be written as an escape. -/
def isControl (c : Char) : Bool :=
  (c.toNat < 32 && c != '\t' && c != '\n') || c.toNat == 127

/-- The length of the longest run of `c`. -/
def longestRun (c : Char) (s : List Char) : Nat :=
  (s.foldl (fun (longest, current) d =>
    let current := if d = c then current + 1 else 0
    (max longest current, current)) (0, 0)).1

/-- The escape of a character with a number below 256. -/
def escapeNumber (c : Char) : List Char :=
  let digit (n : Nat) : Char := (Nat.digitChar n).toUpper
  ['\\', 'u', '0', '0', digit (c.toNat / 16), digit (c.toNat % 16)]

/-- Writes the characters of a string with escapes. Where it goes over several lines, line breaks
are not escaped, and of a row of quotes only every third; `run` counts the quotes so far. -/
def escaped (lines : Bool) : Nat → List Char → List Char
  | _, [] => []
  | run, c :: rest =>
    if c = '"' then
      if lines && run < 2 then '"' :: escaped lines (run + 1) rest
      else '\\' :: '"' :: escaped lines 0 rest
    else if c = '\x08' then '\\' :: 'b' :: escaped lines 0 rest
    else if c = '\t' then '\\' :: 't' :: escaped lines 0 rest
    else if c = '\n' then
      if lines then '\n' :: escaped lines 0 rest else '\\' :: 'n' :: escaped lines 0 rest
    else if c = '\x0c' then '\\' :: 'f' :: escaped lines 0 rest
    else if c = '\r' then '\\' :: 'r' :: escaped lines 0 rest
    else if c = '\\' then '\\' :: '\\' :: escaped lines 0 rest
    else if isControl c then escapeNumber c ++ escaped lines 0 rest
    else c :: escaped lines 0 rest

/-- The four forms of a string. -/
inductive QuotedForm where
  | basic
  | literal
  | basicLines
  | literalLines
deriving DecidableEq

/-- The form in which a text is written: the first that needs no escapes, or else one that has
them. -/
def formOf (s : List Char) : QuotedForm :=
  let control := s.any isControl
  let backslash := s.contains '\\'
  let newline := s.contains '\n'
  if !control && !backslash && !newline && !s.contains '"' then .basic
  else if !control && !newline && !s.contains '\x27' then .literal
  else if !control && !backslash && longestRun '"' s < 3 then .basicLines
  else if !control && longestRun '\x27' s < 3 then .literalLines
  else if newline then .basicLines
  else .basic

/-- The quotes around a string of the form. -/
def QuotedForm.quotes : QuotedForm → List Char
  | .basic => ['"']
  | .literal => ['\x27']
  | .basicLines => ['"', '"', '"']
  | .literalLines => ['\x27', '\x27', '\x27']

/-- Whether a string of the form can go over several lines. -/
def QuotedForm.lines : QuotedForm → Bool
  | .basicLines | .literalLines => true
  | .basic | .literal => false

def QuotedForm.body : QuotedForm → List Char → List Char
  | .basic, s => escaped false 0 s
  | .basicLines, s => escaped true 0 s
  | .literal, s | .literalLines, s => s

/-- Writes a string. A text of several lines starts on a line of its own. -/
def quoted (s : List Char) : List Char :=
  let form := formOf s
  form.quotes ++ (if form.lines && s.contains '\n' then ['\n'] else []) ++ form.body s ++
    form.quotes

end Toml

end Deductions
