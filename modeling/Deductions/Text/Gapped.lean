namespace Deductions

/-- Characters and gaps between them. -/
abbrev GappedText := List (Option Char)

namespace GappedText

/-- The character whose bytes come first. -/
def firstChar? (bytes : List UInt8) : Option Char := (bytes.take 4).toByteArray.utf8DecodeChar? 0

/-- Reads bytes, of which the first `n` belong to the character before them. -/
def ofBytesFrom : Nat → List UInt8 → GappedText
  | _, [] => []
  | n + 1, _ :: rest => ofBytesFrom n rest
  | 0, byte :: rest =>
    match firstChar? (byte :: rest) with
    | some c => some c :: ofBytesFrom (c.utf8Size - 1) rest
    | none => none :: ofBytesFrom 0 rest

def ofBytes (bytes : List UInt8) : GappedText := ofBytesFrom 0 bytes

def ofString (s : String) : GappedText := s.toList.map some

/-- The text, if it has no gaps. -/
def string? (t : GappedText) : Option String := (t.mapM id).map String.ofList

theorem ofBytesFrom_append (front rest : List UInt8) :
    ofBytesFrom front.length (front ++ rest) = ofBytesFrom 0 rest := by
  induction front with
  | nil => rfl
  | cons byte front ih => exact ih

theorem firstChar?_utf8EncodeChar_append (c : Char) (rest : List UInt8) :
    firstChar? (String.utf8EncodeChar c ++ rest) = some c := by
  have size : (String.utf8EncodeChar c).length ≤ 4 := by
    rw [String.length_utf8EncodeChar]
    exact c.utf8Size_le_four
  rw [firstChar?, List.take_append, List.take_of_length_le size, List.toByteArray_append]
  exact ByteArray.utf8DecodeChar?_utf8EncodeChar_append

theorem ofBytesFrom_utf8EncodeChar_append (c : Char) (rest : List UInt8) :
    ofBytesFrom 0 (String.utf8EncodeChar c ++ rest) = some c :: ofBytesFrom 0 rest := by
  have size : (String.utf8EncodeChar c).length = c.utf8Size := String.length_utf8EncodeChar c
  have positive := c.utf8Size_pos
  have first := firstChar?_utf8EncodeChar_append c rest
  cases bytes : String.utf8EncodeChar c with
  | nil => simp [bytes] at size; omega
  | cons byte front =>
    rw [bytes] at size first
    rw [List.cons_append] at first ⊢
    have width : c.utf8Size - 1 = front.length := by simp at size; omega
    rw [ofBytesFrom, first]
    simp only [width, ofBytesFrom_append]

theorem ofBytes_utf8Encode (chars : List Char) :
    ofBytes (chars.flatMap String.utf8EncodeChar) = chars.map some := by
  induction chars with
  | nil => rfl
  | cons c chars ih =>
    rw [List.flatMap_cons, ofBytes, ofBytesFrom_utf8EncodeChar_append, List.map_cons]
    exact congrArg _ ih

end GappedText

end Deductions
