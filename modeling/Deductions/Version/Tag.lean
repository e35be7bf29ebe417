import Deductions.Text.Blank
import Deductions.Text.CharLiteral
import Deductions.Version

namespace Deductions

/-- The parts of a version, in the order in which they are written. -/
inductive VersionPart where
  | major | minor | patch | preRelease | build
deriving DecidableEq

def VersionPart.text : VersionPart → String
  | .major => "major version number"
  | .minor => "minor version number"
  | .patch => "patch version number"
  | .preRelease => "pre-release identifier"
  | .build => "build metadata"

/-- What is wrong with a version text. -/
inductive VersionFault where
  | emptyText
  | leadingZero (part : VersionPart)
  | tooLarge (part : VersionPart)
  | unexpected (c : Char) (part : VersionPart)
  | unexpectedEnd (part : VersionPart)
  | unexpectedAfter (c : Char) (part : VersionPart)
  | emptyLabel (part : VersionPart)
deriving DecidableEq

def VersionFault.message : VersionFault → String
  | .emptyText => "empty string, expected a semver version"
  | .leadingZero part => "invalid leading zero in " ++ part.text
  | .tooLarge part => "value of " ++ part.text ++ " exceeds u64::MAX"
  | .unexpected c part => "unexpected character " ++ quoteChar c ++ " while parsing " ++ part.text
  | .unexpectedEnd part => "unexpected end of input while parsing " ++ part.text
  | .unexpectedAfter c part => "unexpected character " ++ quoteChar c ++ " after " ++ part.text
  | .emptyLabel part => "empty identifier segment in " ++ part.text

/-- A version tag that cannot be read, as it was given. -/
structure VersionError where
  tag : String
  fault : VersionFault
deriving DecidableEq

def VersionError.message (e : VersionError) : String :=
  s!"invalid version tag '{e.tag}': " ++ e.fault.message

namespace Version

/-- The value of a run of digits. -/
def numeral (digits : List Char) : Nat :=
  digits.foldl (fun value digit => value * 10 + (digit.toNat - 48)) 0

/-- Reads one of the three numbers and returns what follows it. -/
def readNumber (part : VersionPart) (text : List Char) :
    Except VersionFault (UInt64 × List Char) :=
  match text.takeWhile Char.isDigit, text.dropWhile Char.isDigit with
  | [], [] => .error (.unexpectedEnd part)
  | [], c :: _ => .error (.unexpected c part)
  | '0' :: _ :: _, _ => .error (.leadingZero part)
  | digits, rest =>
    if numeral digits < UInt64.size then .ok (UInt64.ofNat (numeral digits), rest)
    else .error (.tooLarge part)

/-- Reads the dot after one of the first two numbers. -/
def readDot (part : VersionPart) : List Char → Except VersionFault (List Char)
  | [] => .error (.unexpectedEnd part)
  | '.' :: rest => .ok rest
  | c :: _ => .error (.unexpectedAfter c part)

/-- Whether the character can stand in a label. -/
def isLabelChar (c : Char) : Bool := c.isAlphanum || c == '-'

/-- Reads a run of label characters as a label, if there are any. -/
def label? (run : List Char) : Option Label :=
  if valid : isLabel (String.ofList run) = true then some ⟨String.ofList run, valid⟩ else none

/-- Reads dot-separated labels and returns what follows them. -/
def readLabels (part : VersionPart) (text : List Char) :
    Except VersionFault (List Label × List Char) :=
  match label? (text.takeWhile isLabelChar) with
  | none => .error (.emptyLabel part)
  | some label =>
    if part = .preRelease ∧ label.hasLeadingZero then .error (.leadingZero part)
    else
      match _after : text.dropWhile isLabelChar with
      | '.' :: rest => do
        let (labels, rest) ← readLabels part rest
        return (label :: labels, rest)
      | rest => .ok ([label], rest)
termination_by text.length
decreasing_by
  have shorter := (List.dropWhile_sublist (l := text) isLabelChar).length_le
  simp only [*] at shorter
  simp only [List.length_cons] at shorter
  omega

/-- Reads the labels behind `mark`; none where the text does not start with it. -/
def readMarked (mark : Char) (part : VersionPart) :
    List Char → Except VersionFault (List Label × List Char)
  | [] => .ok ([], [])
  | c :: rest => if c = mark then readLabels part rest else .ok ([], c :: rest)

/-- The part of the version that was written last. -/
def lastPart (pre build : List Label) : VersionPart :=
  if !build.isEmpty then .build else if !pre.isEmpty then .preRelease else .patch

/-- Reads a version. -/
def read (text : List Char) : Except VersionFault Version := do
  if text.isEmpty then throw .emptyText
  let (major, text) ← readNumber .major text
  let text ← readDot .major text
  let (minor, text) ← readNumber .minor text
  let text ← readDot .minor text
  let (patch, text) ← readNumber .patch text
  let (pre, text) ← readMarked '-' .preRelease text
  let (build, text) ← readMarked '+' .build text
  match text with
  | c :: _ => throw (.unexpectedAfter c (lastPart pre build))
  | [] =>
    if plain : pre.all (fun l => !l.hasLeadingZero) = true then
      return ⟨major, minor, patch, pre, build, plain⟩
    else throw (.leadingZero .preRelease)

/-- Reads a version tag: blank characters around it and one `v` in front of it do not count. -/
def parse (tag : String) : Except VersionError Version :=
  let trimmed := trimBlank tag.toList
  let bare := match trimmed with
    | 'v' :: rest => rest
    | text => text
  (read bare).mapError (⟨tag, ·⟩)

end Version

end Deductions
