import Deductions.Double
import Deductions.Json
import Deductions.Text.Gapped

namespace Deductions

namespace Json

/-- Digits, and what follows them. -/
def spanDigits : GappedText → List Char × GappedText
  | some c :: rest =>
    if c.isDigit then
      let (digits, rest) := spanDigits rest
      (c :: digits, rest)
    else ([], some c :: rest)
  | text => ([], text)

/-- At least one digit, and what follows the digits. -/
def readDigits (text : GappedText) : Option (List Char × GappedText) :=
  match spanDigits text with
  | ([], _) => none
  | result => some result

/-- The digits behind the point, if there is one. -/
def readFraction : GappedText → Option (List Char × GappedText)
  | some '.' :: rest => readDigits rest
  | text => some ([], text)

/-- The exponent of a number as it is written, if there is one. -/
def readExponent : GappedText → Option (List Char × GappedText)
  | some e :: rest =>
    if e = 'e' || e = 'E' then
      let (sign, rest) := match rest with
        | some '+' :: rest => (['+'], rest)
        | some '-' :: rest => (['-'], rest)
        | rest => ([], rest)
      do
        let (digits, rest) ← readDigits rest
        return (e :: sign ++ digits, rest)
    else some ([], some e :: rest)
  | text => some ([], text)

def digitValue (digit : Char) : Nat := digit.toNat - 48

def digitsValue (digits : List Char) : Nat :=
  digits.foldl (fun value digit => value * 10 + digitValue digit) 0

/-- The value of an exponent that is written with its letter; 0 where none is written. -/
def exponentValue : List Char → Int
  | _ :: '-' :: digits => -digitsValue digits
  | _ :: '+' :: digits => digitsValue digits
  | _ :: digits => digitsValue digits
  | [] => 0

/-- Adds digits to a value as long as it stays below `2 ^ 64`; how many are left comes with it. -/
def addDigits (value : Nat) : List Char → Nat × Nat
  | [] => (value, 0)
  | digit :: rest =>
    let next := value * 10 + digitValue digit
    if next < UInt64.size then addDigits next rest else (value, rest.length + 1)

/-- Whether a number is infinite as a double, of whose digits those count that fit below `2 ^ 64`,
first of the whole part and then of the fraction. -/
def isInfinite (whole fraction : List Char) (exponent : Int) : Bool :=
  let (value, cut) := addDigits 0 whole
  let (value, dropped) := addDigits value fraction
  let scale := exponent + cut + dropped - fraction.length
  0 ≤ scale && isInfiniteScaled value scale.toNat

def readNumber (text : GappedText) : Option (Json × GappedText) := do
  let (sign, rest) := match text with
    | some '-' :: rest => (['-'], rest)
    | rest => ([], rest)
  let (whole, rest) ← readDigits rest
  if whole.head? == some '0' && whole.length != 1 then none
  let (fraction, rest) ← readFraction rest
  let (exponent, rest) ← readExponent rest
  if isInfinite whole fraction (exponentValue exponent) then some (.unreadable, rest)
  else if sign.isEmpty && fraction.isEmpty && exponent.isEmpty then
    some (.natural (digitsValue whole), rest)
  else
    let point := if fraction.isEmpty then [] else ['.']
    some (.number (String.ofList (sign ++ whole ++ point ++ fraction ++ exponent)), rest)

end Json

end Deductions
