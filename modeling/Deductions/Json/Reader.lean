import Deductions.Json.Number
import Deductions.Text.HexDigit

namespace Deductions

namespace Json

def isSpace (c : Char) : Bool := c == ' ' || c == '\n' || c == '\t' || c == '\r'

def skipSpace (text : GappedText) : GappedText := text.dropWhile fun c => c.any isSpace

/-- Four hexadecimal digits. -/
def readUnit : GappedText → Option (Nat × GappedText)
  | some a :: some b :: some c :: some d :: rest => do return (← hexNumber? [a, b, c, d], rest)
  | _ => none

/-- The second half of a pair of units, behind the first one. -/
def readSecondHalf : GappedText → Option (Nat × GappedText)
  | some '\\' :: some 'u' :: rest => do
    let (low, rest) ← readUnit rest
    if 0xDC00 ≤ low && low < 0xE000 then some (low, rest) else none
  | _ => none

/-- The character of the one or two units behind a `\u`. One half of a pair is none. -/
def readCodePoint (text : GappedText) : Option (Option Char × GappedText) := do
  let (unit, rest) ← readUnit text
  if 0xD800 ≤ unit && unit < 0xDC00 then
    match readSecondHalf rest with
    | some (low, rest) =>
      some (some (Char.ofNat (0x10000 + (unit - 0xD800) * 0x400 + (low - 0xDC00))), rest)
    | none => some (none, rest)
  else if 0xDC00 ≤ unit && unit < 0xE000 then some (none, rest)
  else some (some (Char.ofNat unit), rest)

/-- The character of an escape, behind its backslash. -/
def readEscape : GappedText → Option (Option Char × GappedText)
  | some '"' :: rest => some (some '"', rest)
  | some '\\' :: rest => some (some '\\', rest)
  | some '/' :: rest => some (some '/', rest)
  | some 'b' :: rest => some (some '\x08', rest)
  | some 'f' :: rest => some (some '\x0c', rest)
  | some 'n' :: rest => some (some '\n', rest)
  | some 'r' :: rest => some (some '\r', rest)
  | some 't' :: rest => some (some '\t', rest)
  | some 'u' :: rest => readCodePoint rest
  | _ => none

/-- A string behind its opening quote, in which a gap stands for what is no character. The fuel
bounds its characters. -/
def readString : Nat → GappedText → Option (GappedText × GappedText)
  | 0, _ => none
  | _, [] => none
  | _, some '"' :: rest => some ([], rest)
  | fuel + 1, some '\\' :: rest => do
    let (c, rest) ← readEscape rest
    let (s, rest) ← readString fuel rest
    return (c :: s, rest)
  | fuel + 1, c :: rest =>
    if c.any fun c => c.toNat < 32 then none
    else do
      let (s, rest) ← readString fuel rest
      return (c :: s, rest)

def ofText (text : GappedText) : Json :=
  match text.string? with
  | some s => .string s
  | none => .unreadable

/-- The object with members of these names. -/
def ofMembers (members : List (GappedText × Json)) : Json :=
  match members.mapM fun (name, value) => do return (← name.string?, value) with
  | some members => .object members
  | none => .unreadable

/-- What follows `word` at the start of the text. -/
def readWord : List Char → GappedText → Option GappedText
  | [], text => some text
  | w :: word, c :: text => if c = some w then readWord word text else none
  | _ :: _, [] => none

mutual

/-- A value and what follows it. The fuel bounds strings, and the nesting and the length of lists
together. -/
def readValue : Nat → GappedText → Option (Json × GappedText)
  | 0, _ => none
  | fuel + 1, text =>
    match skipSpace text with
    | some 'n' :: rest => do return (.null, ← readWord ['u', 'l', 'l'] rest)
    | some 't' :: rest => do return (.bool true, ← readWord ['r', 'u', 'e'] rest)
    | some 'f' :: rest => do return (.bool false, ← readWord ['a', 'l', 's', 'e'] rest)
    | some '"' :: rest => do
      let (s, rest) ← readString fuel rest
      return (ofText s, rest)
    | some '[' :: rest =>
      match skipSpace rest with
      | some ']' :: rest => some (.array [], rest)
      | rest => do
        let (elems, rest) ← readElems fuel rest
        return (.array elems, rest)
    | some '\x7b' :: rest =>
      match skipSpace rest with
      | some '\x7d' :: rest => some (.object [], rest)
      | rest => do
        let (members, rest) ← readMembers fuel rest
        return (ofMembers members, rest)
    | rest => readNumber rest

/-- The elements of an array up to its closing bracket. -/
def readElems : Nat → GappedText → Option (List Json × GappedText)
  | 0, _ => none
  | fuel + 1, text => do
    let (value, rest) ← readValue fuel text
    match skipSpace rest with
    | some ',' :: rest =>
      let (values, rest) ← readElems fuel rest
      return (value :: values, rest)
    | some ']' :: rest => some ([value], rest)
    | _ => none

/-- The members of an object up to its closing brace. -/
def readMembers : Nat → GappedText → Option (List (GappedText × Json) × GappedText)
  | 0, _ => none
  | fuel + 1, text =>
    match skipSpace text with
    | some '"' :: rest => do
      let (name, rest) ← readString fuel rest
      match skipSpace rest with
      | some ':' :: rest =>
        let (value, rest) ← readValue fuel rest
        match skipSpace rest with
        | some ',' :: rest =>
          let (members, rest) ← readMembers fuel rest
          return ((name, value) :: members, rest)
        | some '\x7d' :: rest => some ([(name, value)], rest)
        | _ => none
      | _ => none
    | _ => none

end

/-- The value of a whole text. -/
def parse (text : GappedText) : Option Json := do
  let (value, rest) ← readValue (2 * text.length + 2) text
  if (skipSpace rest).isEmpty then some value else none

end Json

end Deductions
