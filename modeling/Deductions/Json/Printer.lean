import Deductions.Json

namespace Deductions

namespace Json

/-- The digits of a number below 256 in hexadecimal, two of them. -/
def hexByte (n : Nat) : List Char := [Nat.digitChar (n / 16), Nat.digitChar (n % 16)]

/-- A character of a string as it is written between the quotes. -/
def escape (c : Char) : List Char :=
  if c = '"' then ['\\', '"']
  else if c = '\\' then ['\\', '\\']
  else if c = '\n' then ['\\', 'n']
  else if c = '\r' then ['\\', 'r']
  else if c = '\t' then ['\\', 't']
  else if c = '\x08' then ['\\', 'b']
  else if c = '\x0c' then ['\\', 'f']
  else if c.toNat < 32 then ['\\', 'u', '0', '0'] ++ hexByte c.toNat
  else [c]

def quote (s : String) : List Char := '"' :: s.toList.flatMap escape ++ ['"']

mutual

/-- The form without any blanks. -/
def compact : Json → List Char
  | .null => "null".toList
  | .unreadable => "\"\\ud800\"".toList
  | .bool b => (toString b).toList
  | .natural n => Nat.toDigits 10 n
  | .number literal => literal.toList
  | .string s => quote s
  | .array [] => ['[', ']']
  | .array (first :: rest) => '[' :: compact first ++ compactElems rest
  | .object [] => ['\x7b', '\x7d']
  | .object ((name, value) :: rest) =>
    '\x7b' :: quote name ++ ':' :: compact value ++ compactMembers rest

def compactElems : List Json → List Char
  | [] => [']']
  | value :: rest => ',' :: compact value ++ compactElems rest

def compactMembers : List (String × Json) → List Char
  | [] => ['\x7d']
  | (name, value) :: rest => ',' :: quote name ++ ':' :: compact value ++ compactMembers rest

end

/-- A new line indented to `depth`. -/
def newline (depth : Nat) : List Char := '\n' :: List.replicate (2 * depth) ' '

mutual

/-- The form with every element and member on a line of its own. -/
def pretty (depth : Nat) : Json → List Char
  | .null => "null".toList
  | .unreadable => "\"\\ud800\"".toList
  | .bool b => (toString b).toList
  | .natural n => Nat.toDigits 10 n
  | .number literal => literal.toList
  | .string s => quote s
  | .array [] => ['[', ']']
  | .array (first :: rest) =>
    '[' :: newline (depth + 1) ++ pretty (depth + 1) first ++ prettyElems depth rest
  | .object [] => ['\x7b', '\x7d']
  | .object ((name, value) :: rest) =>
    '\x7b' :: newline (depth + 1) ++ quote name ++ ':' :: ' ' :: pretty (depth + 1) value ++
      prettyMembers depth rest

def prettyElems (depth : Nat) : List Json → List Char
  | [] => newline depth ++ [']']
  | value :: rest =>
    ',' :: newline (depth + 1) ++ pretty (depth + 1) value ++ prettyElems depth rest

def prettyMembers (depth : Nat) : List (String × Json) → List Char
  | [] => newline depth ++ ['\x7d']
  | (name, value) :: rest =>
    ',' :: newline (depth + 1) ++ quote name ++ ':' :: ' ' :: pretty (depth + 1) value ++
      prettyMembers depth rest

end

def compactText (j : Json) : String := String.ofList j.compact

def prettyText (j : Json) : String := String.ofList (j.pretty 0)

end Json

end Deductions
