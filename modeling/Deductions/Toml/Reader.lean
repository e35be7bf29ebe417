import Deductions.Double
import Deductions.Toml.Quoted

namespace Deductions

namespace Toml

/-- Keys and values nest less deep than this. -/
def nestingLimit : Nat := 80

/-- What the text holds before `rest`. -/
def consumed (text rest : List Char) : String :=
  String.ofList (text.take (text.length - rest.length))

/-- What follows a comment; where there is none, the text. -/
def skipComment : List Char → List Char
  | '#' :: rest => rest.dropWhile isTextChar
  | text => text

/-- The next line, where the rest of this one holds blanks and a comment only. -/
def readLineEnd (text : List Char) : Option (List Char) :=
  match skipComment (skipBlanks text) with
  | [] => some []
  | rest => readNewline rest

/-- The text without the blanks, comments and line breaks at its start. -/
def skipLayout : Nat → List Char → List Char
  | 0, text => text
  | fuel + 1, text =>
    match readNewline (skipComment (skipBlanks text)) with
    | some rest => skipLayout fuel rest
    | none => skipBlanks text

def isKeyChar (c : Char) : Bool := c.isAlphanum || c == '-' || c == '_'

def readSimpleKey : List Char → Option (String × List Char)
  | '"' :: rest => do
    let (key, rest) ← readBasic (rest.length + 1) rest
    return (String.ofList key, rest)
  | '\x27' :: rest => do
    let (key, rest) ← readLiteral rest
    return (String.ofList key, rest)
  | text =>
    match text.takeWhile isKeyChar with
    | [] => none
    | key => some (String.ofList key, text.dropWhile isKeyChar)

/-- The parts of a dotted key with the blanks around them. The fuel bounds their number. -/
def readKeys : Nat → List Char → Option (List String × List Char)
  | 0, _ => none
  | fuel + 1, text => do
    let (key, rest) ← readSimpleKey (skipBlanks text)
    match skipBlanks rest with
    | '.' :: rest =>
      let (keys, rest) ← readKeys fuel rest
      return (key :: keys, rest)
    | rest => return ([key], rest)

/-- A dotted key: what stands before its last dot, and its last part. -/
def readKey (text : List Char) : Option ((List String × String) × List Char) := do
  let (keys, rest) ← readKeys (nestingLimit - 1) text
  let last ← keys.getLast?
  return ((keys.dropLast, last), rest)

/-- Digits of which single underscores may keep one from the next. -/
def moreDigits (isDigit : Char → Bool) : List Char → List Char × List Char
  | '_' :: c :: rest =>
    if isDigit c then
      let (digits, rest) := moreDigits isDigit rest
      (c :: digits, rest)
    else ([], '_' :: c :: rest)
  | c :: rest =>
    if isDigit c then
      let (digits, rest) := moreDigits isDigit rest
      (c :: digits, rest)
    else ([], c :: rest)
  | [] => ([], [])

/-- At least one digit. -/
def readDigits (isDigit : Char → Bool) : List Char → Option (List Char × List Char)
  | c :: rest =>
    if isDigit c then
      let (digits, rest) := moreDigits isDigit rest
      some (c :: digits, rest)
    else none
  | [] => none

/-- The number that digits of a base write. -/
def digitsValue (base : Nat) (digits : List Char) : Nat :=
  digits.foldl (fun value digit => value * base + (hexDigitValue? digit).getD 0) 0

def readSign : List Char → Bool × List Char
  | '-' :: rest => (true, rest)
  | '+' :: rest => (false, rest)
  | text => (false, text)

/-- The digits of a decimal number; a zero at their start stands alone. -/
def readDecimal : List Char → Option (List Char × List Char)
  | '0' :: rest => some (['0'], rest)
  | text => readDigits Char.isDigit text

/-- A number of 64 bits with a sign. -/
def ofInt? (n : Int) : Option Toml :=
  if Int64.minValue.toInt ≤ n ∧ n ≤ Int64.maxValue.toInt then some (.integer n) else none

def readBased (base : Nat) (isDigit : Char → Bool) (text : List Char) :
    Option (Toml × List Char) := do
  let (digits, rest) ← readDigits isDigit text
  return (← ofInt? (digitsValue base digits), rest)

def readInteger : List Char → Option (Toml × List Char)
  | '0' :: 'x' :: rest => readBased 16 (fun c => (hexDigitValue? c).isSome) rest
  | '0' :: 'o' :: rest => readBased 8 (fun c => '0' ≤ c && c ≤ '7') rest
  | '0' :: 'b' :: rest => readBased 2 (fun c => c == '0' || c == '1') rest
  | text => do
    let (negative, rest) := readSign text
    let (digits, rest) ← readDecimal rest
    let value : Int := digitsValue 10 digits
    return (← ofInt? (if negative then -value else value), rest)

/-- The digits behind the point, if there is one. -/
def readFraction : List Char → Option (List Char × List Char)
  | '.' :: rest => readDigits Char.isDigit rest
  | _ => none

def readExponent : List Char → Option (Int × List Char)
  | e :: rest =>
    if e = 'e' || e = 'E' then do
      let (negative, rest) := readSign rest
      let (digits, rest) ← readDigits Char.isDigit rest
      let value : Int := digitsValue 10 digits
      return (if negative then -value else value, rest)
    else none
  | [] => none

/-- The fraction and the exponent of a float, of which one is there at least. -/
def readFloatEnd (text : List Char) : Option (List Char × Int × List Char) :=
  match readFraction text with
  | some (fraction, rest) =>
    match readExponent rest with
    | some (exponent, rest) => some (fraction, exponent, rest)
    | none => some (fraction, 0, rest)
  | none => (readExponent text).map fun (exponent, rest) => ([], exponent, rest)

/-- Whether `value * 10 ^ exponent`, where the value has as many digits, is nearest to infinity
among the double-precision numbers. -/
def isHuge (value digits : Nat) (exponent : Int) : Bool :=
  if value = 0 || exponent + digits ≤ 308 then false
  else if exponent + digits > 309 then true
  else infinityThreshold ≤ if exponent < 0 then value / Nat.pow 10 (-exponent).toNat
    else value * Nat.pow 10 exponent.toNat

def readDecimalFloat (text : List Char) : Option (Toml × List Char) := do
  let (negative, rest) := readSign text
  let (whole, rest) ← readDecimal rest
  let (fraction, exponent, rest) ← readFloatEnd rest
  let digits := (whole ++ fraction).dropWhile (· == '0')
  if !negative && isHuge (digitsValue 10 digits) digits.length (exponent - fraction.length) then
    none
  else some (.float (consumed text rest), rest)

def readSpecialFloat (text : List Char) : Option (Toml × List Char) :=
  match (readSign text).2 with
  | 'i' :: 'n' :: 'f' :: rest => some (.float (consumed text rest), rest)
  | 'n' :: 'a' :: 'n' :: rest => some (.float (consumed text rest), rest)
  | _ => none

/-- A number of exactly `n` digits between two bounds. -/
def readField (n low high : Nat) (text : List Char) : Option (Nat × List Char) :=
  let digits := text.take n
  let value := digitsValue 10 digits
  if digits.length = n ∧ digits.all Char.isDigit ∧ low ≤ value ∧ value ≤ high then
    some (value, text.drop n)
  else none

def readChar (c : Char) : List Char → Option (List Char)
  | d :: rest => if c = d then some rest else none
  | [] => none

def daysOf (year month : Nat) : Nat :=
  if month = 2 then if (year % 4 = 0 ∧ year % 100 ≠ 0) ∨ year % 400 = 0 then 29 else 28
  else if month = 4 ∨ month = 6 ∨ month = 9 ∨ month = 11 then 30
  else 31

/-- A date. -/
def readDate (text : List Char) : Option (List Char × List Char) := do
  let (year, rest) ← readField 4 0 9999 text
  let (month, rest) ← readField 2 1 12 (← readChar '-' rest)
  let (_, rest) ← readField 2 1 (daysOf year month) (← readChar '-' rest)
  return (text.take 10, rest)

/-- The fraction of a second that digits write: nine of them count, and no zeros at the end. -/
def secondFraction (digits : List Char) : List Char :=
  match (digits.take 9).reverse.dropWhile (· == '0') with
  | [] => []
  | counted => '.' :: counted.reverse

/-- A time of day. -/
def readTime (text : List Char) : Option (List Char × List Char) := do
  let (_, rest) ← readField 2 0 23 text
  let (_, rest) ← readField 2 0 59 (← readChar ':' rest)
  let (_, rest) ← readField 2 0 60 (← readChar ':' rest)
  match rest with
  | '.' :: rest =>
    match rest.takeWhile Char.isDigit with
    | [] => none
    | digits => return (text.take 8 ++ secondFraction digits, rest.dropWhile Char.isDigit)
  | rest => return (text.take 8, rest)

/-- The offset of a time from universal time, if one is there. An offset of zero is positive. -/
def readOffset (text : List Char) : List Char × List Char :=
  match text with
  | 'Z' :: rest => (['Z'], rest)
  | 'z' :: rest => (['Z'], rest)
  | sign :: offset =>
    if sign = '+' || sign = '-' then
      (do
        let (hours, rest) ← readField 2 0 23 offset
        let (minutes, rest) ← readField 2 0 59 (← readChar ':' rest)
        let sign := if hours = 0 ∧ minutes = 0 then '+' else sign
        return (sign :: offset.take 5, rest)).getD ([], text)
    else ([], text)
  | [] => ([], [])

/-- The time of day behind a date, if one is there. -/
def readTimeOfDate (text : List Char) : List Char × List Char :=
  match text with
  | mark :: rest =>
    if mark = 'T' || mark = 't' || mark = ' ' then
      match readTime rest with
      | some (time, rest) =>
        let (offset, rest) := readOffset rest
        ('T' :: time ++ offset, rest)
      | none => ([], text)
    else ([], text)
  | [] => ([], [])

def readDateTime (text : List Char) : Option (Toml × List Char) :=
  match readDate text with
  | some (date, rest) =>
    let (time, rest) := readTimeOfDate rest
    some (.dateTime (String.ofList (date ++ time)), rest)
  | none => (readTime text).map fun (time, rest) => (.dateTime (String.ofList time), rest)

def readWord (word : List Char) (text : List Char) : Option (List Char) :=
  if word.isPrefixOf text then some (text.drop word.length) else none

/-- A value that holds no others. -/
def readScalarValue (text : List Char) : Option (Toml × List Char) :=
  match text with
  | '"' :: _ | '\x27' :: _ =>
    (readQuoted text).map fun (s, rest) => (.string (String.ofList s), rest)
  | 't' :: rest => (readWord ['r', 'u', 'e'] rest).map fun rest => (.bool true, rest)
  | 'f' :: rest => (readWord ['a', 'l', 's', 'e'] rest).map fun rest => (.bool false, rest)
  | _ =>
    readDateTime text <|> readDecimalFloat text <|> readSpecialFloat text <|> readInteger text

mutual

/-- A value. The fuel bounds the lengths of the arrays and inline tables in it, `depth` how deep
they nest. -/
def readValue : Nat → Nat → List Char → Option (Toml × List Char)
  | 0, _, _ => none
  | fuel + 1, depth, text =>
    match text with
    | '[' :: rest =>
      match depth with
      | 0 => none
      | depth + 1 => do
        let (elems, rest) ← readElems fuel depth (skipLayout rest.length rest)
        return (.array elems, rest)
    | '\x7b' :: rest =>
      match depth with
      | 0 => none
      | depth + 1 => do
        let (keys, rest) ← match skipBlanks rest with
          | '\x7d' :: rest => some ([], rest)
          | rest => readMembers fuel depth rest
        return (← inline? keys, rest)
    | _ => readScalarValue text

/-- The elements of an array up to its closing bracket, with layout in front of them skipped. -/
def readElems : Nat → Nat → List Char → Option (List Toml × List Char)
  | 0, _, _ => none
  | _, _, ']' :: rest => some ([], rest)
  | fuel + 1, depth, text => do
    let (value, rest) ← readValue fuel depth text
    match skipLayout rest.length rest with
    | ',' :: rest =>
      let (values, rest) ← readElems fuel depth (skipLayout rest.length rest)
      return (value :: values, rest)
    | ']' :: rest => return ([value], rest)
    | _ => none

/-- The keys of an inline table with their values up to its closing brace. -/
def readMembers : Nat → Nat → List Char →
    Option (List ((List String × String) × Toml) × List Char)
  | 0, _, _ => none
  | fuel + 1, depth, text => do
    let (key, rest) ← readKey text
    let (value, rest) ← readValue fuel depth (skipBlanks (← readChar '=' rest))
    match skipBlanks rest with
    | ',' :: rest =>
      let (members, rest) ← readMembers fuel depth rest
      return ((key, value) :: members, rest)
    | '\x7d' :: rest => return ([(key, value)], rest)
    | _ => none

end

/-- A document as far as it has been read. -/
structure Document where
  root : Entries := []
  /-- The path of the table that the last header opened. -/
  current : List String := []

namespace Document

/-- Binds a key in the current table. -/
def assign (d : Document) (path : List String) (key : String) (value : Toml) : Option Document := do
  let root ← modify false (Toml.assign path key value) d.current .headed d.root
  return { d with root := root }

/-- Follows a header; `opens` opens the table that it names. -/
def enter (d : Document) (opens : String → TableForm → Entries → Option Entries)
    (path : List String) (key : String) : Option Document := do
  let root ← modify false (opens key) path .headed d.root
  return ⟨root, path ++ [key]⟩

end Document

/-- A line that binds a key, and the lines after it. -/
def readBinding (d : Document) (text : List Char) : Option (Document × List Char) := do
  let ((path, key), rest) ← readKey text
  let rest ← readChar '=' rest
  let (value, rest) ← readValue (2 * rest.length + 2) (nestingLimit - 1) (skipBlanks rest)
  return (← d.assign path key value, ← readLineEnd rest)

/-- A header behind its opening bracket, and the lines after it. -/
def readHeader (d : Document) (text : List Char) : Option (Document × List Char) :=
  match text with
  | '[' :: text => do
    let ((path, key), rest) ← readKey text
    let rest ← readLineEnd (← readChar ']' (← readChar ']' rest))
    return (← d.enter openElement path key, rest)
  | text => do
    let ((path, key), rest) ← readKey text
    let rest ← readLineEnd (← readChar ']' rest)
    return (← d.enter openTable path key, rest)

/-- A line that is not blank, and the lines after it. -/
def readLine (d : Document) (text : List Char) : Option (Document × List Char) :=
  match text with
  | '[' :: rest => readHeader d rest
  | text => readBinding d text

/-- All lines. Each takes a character at least, which bounds the fuel. -/
def readLines : Nat → Document → List Char → Option Document
  | 0, _, _ => none
  | fuel + 1, d, text =>
    match skipBlanks text with
    | [] => some d
    | text =>
      match readLineEnd text with
      | some rest => readLines fuel d rest
      | none => do
        let (d, rest) ← readLine d text
        readLines fuel d rest

/-- Reads a document, before which a byte order mark may stand. -/
def parse (text : List Char) : Option Toml :=
  let text := match text with
    | '\uFEFF' :: rest => rest
    | text => text
  (readLines (text.length + 1) {} text).map fun d => .table .headed d.root

end Toml

end Deductions
