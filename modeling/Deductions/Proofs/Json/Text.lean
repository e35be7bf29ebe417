import Deductions.Json.Printer
import Deductions.Json.Reader
import Deductions.Proofs.Json.Number

namespace Deductions

namespace Json

theorem hexNumber?_hexByte {n : Nat} (small : n < 32) : hexNumber? ('0' :: '0' :: hexByte n) = some n := by
  have all : ∀ n < 32, hexNumber? ('0' :: '0' :: hexByte n) = some n := by decide
  exact all n small

theorem readEscape_control {c : Char} (control : c.toNat < 32) (rest : GappedText) :
    readEscape (some 'u' :: ((['0', '0'] ++ hexByte c.toNat).map some ++ rest)) = some (some c, rest) := by
  have unit : readUnit ((['0', '0'] ++ hexByte c.toNat).map some ++ rest) = some (c.toNat, rest) := by
    have number := hexNumber?_hexByte control
    rw [hexByte] at number ⊢
    simp only [List.cons_append, List.nil_append, List.map_cons, List.map_nil, readUnit, number]
    rfl
  have low : (0xD800 ≤ c.toNat && c.toNat < 0xDC00) = false := by simp; omega
  have lower : (0xDC00 ≤ c.toNat && c.toNat < 0xE000) = false := by simp; omega
  rw [readEscape, readCodePoint, unit]
  simp only [Option.bind_eq_bind, Option.bind_some, low, lower, Bool.false_eq_true, if_false,
    Char.ofNat_toNat]

/-- A character is read back from the form in which it is written. -/
theorem readString_escape (c : Char) (fuel : Nat) (rest : GappedText) :
    readString (fuel + 1) ((escape c).map some ++ rest) =
      (readString fuel rest).bind fun p => some (some c :: p.1, p.2) := by
  by_cases special : c ∈ ['"', '\\', '\n', '\r', '\t', '\x08', '\x0c']
  · simp only [List.mem_cons, List.not_mem_nil, or_false] at special
    rcases special with rfl | rfl | rfl | rfl | rfl | rfl | rfl <;> rfl
  simp only [List.mem_cons, List.not_mem_nil, or_false, not_or] at special
  obtain ⟨noQuote, noSlash, noLine, noReturn, noTab, noBack, noFeed⟩ := special
  rw [escape, if_neg noQuote, if_neg noSlash, if_neg noLine, if_neg noReturn, if_neg noTab, if_neg noBack,
    if_neg noFeed]
  split
  next control =>
    have written : ['\\', 'u', '0', '0'] ++ hexByte c.toNat =
      '\\' :: 'u' :: (['0', '0'] ++ hexByte c.toNat) := rfl
    rw [written, List.map_cons, List.map_cons, List.cons_append, List.cons_append, readString,
      readEscape_control control]
    rfl
  next visible =>
    rw [List.map_cons, List.map_nil, List.cons_append, List.nil_append, readString]
    · rw [if_neg (by simpa using visible)]
      rfl
    all_goals simp [noQuote, noSlash]

theorem readString_flatMap_escape {cs : List Char} {fuel : Nat} (enough : cs.length < fuel)
    (rest : GappedText) :
    readString fuel ((cs.flatMap escape).map some ++ some '"' :: rest) = some (cs.map some, rest) := by
  induction cs generalizing fuel with
  | nil =>
    obtain ⟨fuel, rfl⟩ := Nat.exists_eq_add_of_lt enough
    rfl
  | cons c cs ih =>
    obtain ⟨fuel, rfl⟩ : ∃ n, fuel = n + 1 := Nat.exists_eq_succ_of_ne_zero (by omega)
    rw [List.flatMap_cons, List.map_append, List.append_assoc, readString_escape,
      ih (by simpa using enough)]
    rfl

theorem length_le_flatMap_escape (cs : List Char) : cs.length ≤ (cs.flatMap escape).length := by
  induction cs with
  | nil => exact Nat.le_refl _
  | cons c cs ih =>
    have written : 0 < (escape c).length := by
      unfold escape
      repeat' split
      all_goals simp [hexByte]
    rw [List.flatMap_cons, List.length_append, List.length_cons]
    omega

theorem string?_map_some (cs : List Char) :
    GappedText.string? (cs.map some) = some (String.ofList cs) := by
  have whole : (cs.map some).mapM id = some cs := by
    induction cs with
    | nil => rfl
    | cons c cs ih => simp [ih]
  rw [GappedText.string?, whole]
  rfl

theorem ofText_map_some (s : String) : ofText (s.toList.map some) = .string s := by
  rw [ofText, string?_map_some, String.ofList_toList]

theorem ofMembers_map_some (members : List (String × Json)) :
    ofMembers (members.map fun m => (m.1.toList.map some, m.2)) = .object members := by
  have named : ((members.map fun m => (m.1.toList.map some, m.2)).mapM fun (name, value) =>
      (do return (← GappedText.string? name, value) : Option (String × Json))) = some members := by
    induction members with
    | nil => rfl
    | cons m members ih =>
      rw [List.map_cons, List.mapM_cons, ih]
      dsimp only
      rw [string?_map_some, String.ofList_toList]
      rfl
  rw [ofMembers, named]

/-- All strings are texts, and all numbers are natural numbers below `2 ^ 64`. -/
inductive IsPlain : Json → Prop
  | null : IsPlain .null
  | bool (b : Bool) : IsPlain (.bool b)
  | natural (n : Nat) (small : n < UInt64.size) : IsPlain (.natural n)
  | string (s : String) : IsPlain (.string s)
  | array (elems : List Json) (plain : ∀ j ∈ elems, IsPlain j) : IsPlain (.array elems)
  | object (members : List (String × Json)) (plain : ∀ m ∈ members, IsPlain m.2) :
    IsPlain (.object members)

theorem skipSpace_cons {c : Char} (visible : isSpace c = false) (rest : GappedText) :
    skipSpace (some c :: rest) = some c :: rest := by
  rw [skipSpace, List.dropWhile_cons, Option.any_some, visible]
  rfl

theorem isSpace_of_isDigit {d : Char} (isDigit : d.isDigit = true) : isSpace d = false := by
  refine Bool.eq_false_iff.mpr fun blank => ?_
  simp only [isSpace, Bool.or_eq_true, beq_iff_eq] at blank
  rcases blank with ((rfl | rfl) | rfl) | rfl <;> cases isDigit

theorem compact_natural (n : Nat) : compact (.natural n) = Nat.toDigits 10 n := rfl

theorem compact_string (s : String) : compact (.string s) = quote s := rfl

theorem compact_array (first : Json) (rest : List Json) :
    compact (.array (first :: rest)) = '[' :: (compact first ++ compactElems rest) := rfl

theorem compact_object (name : String) (value : Json) (rest : List (String × Json)) :
    compact (.object ((name, value) :: rest)) =
      '\x7b' :: (quote name ++ ':' :: compact value ++ compactMembers rest) := rfl

theorem compact_true : compact (.bool true) = ['t', 'r', 'u', 'e'] := rfl

theorem compact_false : compact (.bool false) = ['f', 'a', 'l', 's', 'e'] := rfl

/-- The character with which a plain value starts is no blank, and closes no array. -/
theorem IsPlain.exists_compact {j : Json} (plain : j.IsPlain) :
    ∃ c cs, j.compact = c :: cs ∧ isSpace c = false ∧ c ≠ ']' := by
  cases plain with
  | null => exact ⟨'n', _, rfl, by decide, by decide⟩
  | bool b =>
    cases b
    · exact ⟨_, _, compact_false, by decide, by decide⟩
    · exact ⟨_, _, compact_true, by decide, by decide⟩
  | natural n small =>
    obtain ⟨d, digits, written, isDigit⟩ := exists_toDigits_cons n
    refine ⟨d, digits, written, isSpace_of_isDigit isDigit, ?_⟩
    rintro rfl
    cases isDigit
  | string s => exact ⟨'"', _, rfl, by decide, by decide⟩
  | array elems => cases elems <;> exact ⟨'[', _, rfl, by decide, by decide⟩
  | object members => cases members <;> exact ⟨'\x7b', _, rfl, by decide, by decide⟩

theorem readValue_digit {d : Char} (isDigit : d.isDigit = true) (fuel : Nat) (rest : GappedText) :
    readValue (fuel + 1) (some d :: rest) = readNumber (some d :: rest) := by
  rw [readValue, skipSpace_cons (isSpace_of_isDigit isDigit)]
  split
  -- a value of any other kind starts with a character that is no digit
  case h_7 => rfl
  all_goals
    next other =>
      cases other
      cases isDigit

/-- The value is read back from its compact form, wherever this stands. -/
def ReadsBack (j : Json) : Prop := ∀ fuel rest, j.compact.length < fuel → EndsNumber rest →
  readValue fuel (j.compact.map some ++ rest) = some (j, rest)

theorem endsNumber_compactElems (elems : List Json) (rest : GappedText) :
    EndsNumber ((compactElems elems).map some ++ rest) := by
  intro c first
  cases elems <;> cases first <;> decide

theorem endsNumber_compactMembers (members : List (String × Json)) (rest : GappedText) :
    EndsNumber ((compactMembers members).map some ++ rest) := by
  intro c first
  rcases members with _ | ⟨m, members⟩ <;> cases first <;> decide

section

variable {fuel : Nat} {text rest : GappedText} {value : Json}

theorem readElems_last (read : readValue fuel text = some (value, some ']' :: rest)) :
    readElems (fuel + 1) text = some ([value], rest) := by
  rw [readElems, read]
  rfl

theorem readElems_more {values : List Json} {last : GappedText}
    (read : readValue fuel text = some (value, some ',' :: rest))
    (more : readElems fuel rest = some (values, last)) :
    readElems (fuel + 1) text = some (value :: values, last) := by
  rw [readElems, read]
  change (readElems fuel rest).bind _ = _
  rw [more]
  rfl

variable {name : GappedText} {valueText : GappedText}

theorem readMembers_last (named : readString fuel text = some (name, some ':' :: valueText))
    (read : readValue fuel valueText = some (value, some '\x7d' :: rest)) :
    readMembers (fuel + 1) (some '"' :: text) = some ([(name, value)], rest) := by
  change (readString fuel text).bind _ = _
  rw [named]
  change (readValue fuel valueText).bind _ = _
  rw [read]
  rfl

theorem readMembers_more {members : List (GappedText × Json)} {last : GappedText}
    (named : readString fuel text = some (name, some ':' :: valueText))
    (read : readValue fuel valueText = some (value, some ',' :: rest))
    (more : readMembers fuel rest = some (members, last)) :
    readMembers (fuel + 1) (some '"' :: text) = some ((name, value) :: members, last) := by
  change (readString fuel text).bind _ = _
  rw [named]
  change (readValue fuel valueText).bind _ = _
  rw [read]
  change (readMembers fuel rest).bind _ = _
  rw [more]
  rfl

end

/-- The elements of an array are read back one after the other. -/
theorem readElems_compact {first : Json} {others : List Json}
    (readBack : ∀ j ∈ first :: others, j.ReadsBack) {fuel : Nat} (rest : GappedText)
    (enough : (first.compact ++ compactElems others).length < fuel) :
    readElems fuel ((first.compact ++ compactElems others).map some ++ rest) =
      some (first :: others, rest) := by
  induction others generalizing first fuel with
  | nil =>
    obtain ⟨fuel, rfl⟩ : ∃ n, fuel = n + 1 := Nat.exists_eq_succ_of_ne_zero (by omega)
    rw [List.length_append, compactElems, List.length_singleton] at enough
    rw [List.map_append, List.append_assoc]
    exact readElems_last (readBack first List.mem_cons_self fuel _ (by omega)
      (endsNumber_compactElems [] rest))
  | cons second others ih =>
    obtain ⟨fuel, rfl⟩ : ∃ n, fuel = n + 1 := Nat.exists_eq_succ_of_ne_zero (by omega)
    rw [List.length_append, compactElems, List.cons_append, List.length_cons] at enough
    have later := ih (fun j member => readBack j (List.mem_cons_of_mem _ member))
      (show (second.compact ++ compactElems others).length < fuel by omega)
    rw [List.map_append, List.append_assoc]
    exact readElems_more (readBack first List.mem_cons_self fuel _ (by omega)
      (endsNumber_compactElems (second :: others) rest)) later

theorem readString_quote {s : String} {fuel : Nat} (enough : (quote s).length < fuel + 1)
    (rest : GappedText) :
    ∃ text, (quote s).map some ++ rest = some '"' :: text ∧
      readString fuel text = some (s.toList.map some, rest) := by
  have short := length_le_flatMap_escape s.toList
  rw [quote, List.length_append, List.length_cons, List.length_singleton] at enough
  refine ⟨(s.toList.flatMap escape).map some ++ some '"' :: rest, ?_,
    readString_flatMap_escape (by omega) rest⟩
  simp [quote]

theorem readString_member {name : String} {value after : List Char} {fuel : Nat}
    (enough : (quote name).length < fuel + 1) (rest : GappedText) :
    ∃ text, (quote name ++ ':' :: value ++ after).map some ++ rest = some '"' :: text ∧
      readString fuel text =
        some (name.toList.map some, some ':' :: (value.map some ++ (after.map some ++ rest))) := by
  obtain ⟨text, same, named⟩ := readString_quote enough
    (some ':' :: (value.map some ++ (after.map some ++ rest)))
  refine ⟨text, ?_, named⟩
  rw [← same]
  simp only [List.map_append, List.map_cons, List.append_assoc, List.cons_append]

/-- The members of an object are read back one after the other. -/
theorem readMembers_compact {name : String} {value : Json} {others : List (String × Json)}
    (first : value.ReadsBack) (later : ∀ m ∈ others, m.2.ReadsBack) {fuel : Nat} (rest : GappedText)
    (enough : (quote name ++ ':' :: value.compact ++ compactMembers others).length < fuel) :
    readMembers fuel ((quote name ++ ':' :: value.compact ++ compactMembers others).map some ++ rest) =
      some (((name, value) :: others).map fun m => (m.1.toList.map some, m.2), rest) := by
  induction others generalizing name value fuel with
  | nil =>
    obtain ⟨fuel, rfl⟩ : ∃ n, fuel = n + 1 := Nat.exists_eq_succ_of_ne_zero (by omega)
    simp only [List.length_append, List.length_cons, compactMembers, List.length_nil] at enough
    obtain ⟨text, same, named⟩ := readString_member (show (quote name).length < fuel + 1 by omega) rest
    rw [same]
    exact readMembers_last named (first fuel _ (by omega) (endsNumber_compactMembers [] rest))
  | cons second others ih =>
    obtain ⟨fuel, rfl⟩ : ∃ n, fuel = n + 1 := Nat.exists_eq_succ_of_ne_zero (by omega)
    obtain ⟨next, later⟩ := List.forall_mem_cons.mp later
    simp only [List.length_append, List.length_cons, compactMembers] at enough
    have more := ih next later (show (quote second.1 ++ ':' :: second.2.compact ++
      compactMembers others).length < fuel by simp only [List.length_append, List.length_cons]; omega)
    obtain ⟨text, same, named⟩ := readString_member (show (quote name).length < fuel + 1 by omega) rest
    rw [same]
    exact readMembers_more named
      (first fuel _ (by omega) (endsNumber_compactMembers (second :: others) rest)) more

theorem readValue_array {text : GappedText}
    (starts : ∃ c cs, text = some c :: cs ∧ isSpace c = false ∧ c ≠ ']')
    {fuel : Nat} {elems : List Json} {rest : GappedText} (read : readElems fuel text = some (elems, rest)) :
    readValue (fuel + 1) (some '[' :: text) = some (.array elems, rest) := by
  obtain ⟨c, cs, rfl, visible, continues⟩ := starts
  have bracket : skipSpace (some '[' :: some c :: cs) = some '[' :: some c :: cs := rfl
  simp only [readValue, bracket, skipSpace_cons visible]
  split
  next closed =>
    cases closed
    exact absurd rfl continues
  · rw [read]
    rfl

theorem readValue_object {text : GappedText} {fuel : Nat} {members : List (GappedText × Json)}
    {rest : GappedText} (read : readMembers fuel (some '"' :: text) = some (members, rest)) :
    readValue (fuel + 1) (some '\x7b' :: some '"' :: text) = some (ofMembers members, rest) := by
  change (readMembers fuel (some '"' :: text)).bind _ = _
  rw [read]
  rfl

/-- Every plain value is read back. -/
theorem IsPlain.readsBack {j : Json} (plain : j.IsPlain) : j.ReadsBack := by
  induction plain with
  | null =>
    intro fuel rest enough _
    obtain ⟨fuel, rfl⟩ : ∃ n, fuel = n + 1 := Nat.exists_eq_succ_of_ne_zero (by omega)
    rfl
  | bool b =>
    intro fuel rest enough _
    obtain ⟨fuel, rfl⟩ : ∃ n, fuel = n + 1 := Nat.exists_eq_succ_of_ne_zero (by omega)
    cases b
    · rw [compact_false]
      rfl
    · rw [compact_true]
      rfl
  | natural n small =>
    intro fuel rest enough ends
    obtain ⟨fuel, rfl⟩ : ∃ n, fuel = n + 1 := Nat.exists_eq_succ_of_ne_zero (by omega)
    obtain ⟨d, digits, written, isDigit⟩ := exists_toDigits_cons n
    have number := readNumber_toDigits small ends
    rw [compact_natural]
    rw [written] at number ⊢
    exact (readValue_digit isDigit fuel _).trans number
  | string s =>
    intro fuel rest enough _
    obtain ⟨fuel, rfl⟩ : ∃ n, fuel = n + 1 := Nat.exists_eq_succ_of_ne_zero (by omega)
    obtain ⟨text, same, read⟩ := readString_quote enough rest
    rw [compact_string, same]
    change (readString fuel text).bind _ = _
    rw [read]
    exact congrArg (fun j => some (j, rest)) (ofText_map_some s)
  | array elems plain ih =>
    intro fuel rest enough _
    obtain ⟨fuel, rfl⟩ : ∃ n, fuel = n + 1 := Nat.exists_eq_succ_of_ne_zero (by omega)
    cases elems with
    | nil => rfl
    | cons first others =>
      obtain ⟨c, cs, starts, visible, continues⟩ := (plain first List.mem_cons_self).exists_compact
      rw [compact_array, List.length_cons] at enough
      have read := readElems_compact ih rest (Nat.lt_of_succ_lt_succ enough)
      rw [compact_array, List.map_cons, List.cons_append]
      have started : (first.compact ++ compactElems others).map some ++ rest =
          some c :: (cs.map some ++ ((compactElems others).map some ++ rest)) := by
        rw [starts, List.map_append, List.map_cons, List.append_assoc, List.cons_append]
      exact readValue_array ⟨c, _, started, visible, continues⟩ read
  | object members plain ih =>
    intro fuel rest enough _
    obtain ⟨fuel, rfl⟩ : ∃ n, fuel = n + 1 := Nat.exists_eq_succ_of_ne_zero (by omega)
    rcases members with _ | ⟨⟨name, value⟩, others⟩
    · rfl
    obtain ⟨first, later⟩ := List.forall_mem_cons.mp ih
    rw [compact_object, List.length_cons] at enough
    have read := readMembers_compact first later rest (Nat.lt_of_succ_lt_succ enough)
    rw [compact_object, List.map_cons, List.cons_append]
    obtain ⟨text, same⟩ : ∃ text, (quote name ++ ':' :: value.compact ++ compactMembers others).map some ++
        rest = some '"' :: text := by
      obtain ⟨text, same, _⟩ := readString_member (Nat.lt_succ_self _) rest
      exact ⟨text, same⟩
    rw [same] at read ⊢
    rw [readValue_object read, ofMembers_map_some]

theorem length_lt_compactElems (elems : List Json) : elems.length < (compactElems elems).length := by
  induction elems with
  | nil => exact Nat.one_pos
  | cons value elems ih =>
    rw [compactElems, List.length_append, List.length_cons, List.length_cons]
    omega

theorem length_lt_compactMembers (members : List (String × Json)) :
    members.length < (compactMembers members).length := by
  induction members with
  | nil => exact Nat.one_pos
  | cons member members ih =>
    rw [compactMembers, List.length_append, List.length_append, List.length_cons, List.length_cons]
    omega

theorem length_compact_le_members {m : String × Json} {members : List (String × Json)}
    (member : m ∈ members) : m.2.compact.length ≤ (compactMembers members).length := by
  induction members with
  | nil => cases member
  | cons first members ih =>
    rw [compactMembers, List.length_append, List.length_append, List.length_cons, List.length_cons]
    rcases List.mem_cons.mp member with rfl | later
    · omega
    · have := ih later
      omega

/-- The text of an array is at least as long as the array. -/
theorem length_le_compact_array (elems : List Json) : elems.length ≤ (compact (.array elems)).length := by
  cases elems with
  | nil => exact Nat.zero_le _
  | cons first rest =>
    have others := length_lt_compactElems rest
    rw [compact_array, List.length_cons, List.length_cons, List.length_append]
    omega

/-- The text of an object is at least as long as the list of its members. -/
theorem length_le_compact_object (members : List (String × Json)) :
    members.length ≤ (compact (.object members)).length := by
  cases members with
  | nil => exact Nat.zero_le _
  | cons first rest =>
    have others := length_lt_compactMembers rest
    rw [compact_object, List.length_cons, List.length_cons, List.length_append]
    omega

/-- The text of a member is part of the text of the object. -/
theorem length_compact_le_object {m : String × Json} {members : List (String × Json)}
    (member : m ∈ members) : m.2.compact.length ≤ (compact (.object members)).length := by
  cases members with
  | nil => cases member
  | cons first rest =>
    rw [compact_object, List.length_cons, List.length_append, List.length_append, List.length_cons]
    rcases List.mem_cons.mp member with rfl | later
    · omega
    · have := length_compact_le_members later
      omega

theorem bytes_ofList (cs : List Char) :
    (String.ofList cs).toUTF8.data.toList = cs.flatMap String.utf8EncodeChar := by
  rw [String.toUTF8_eq_toByteArray, String.toByteArray_ofList]
  exact List.toList_data_toByteArray

theorem length_le_bytes_ofList (cs : List Char) :
    cs.length ≤ (String.ofList cs).toUTF8.data.toList.length := by
  rw [bytes_ofList]
  induction cs with
  | nil => exact Nat.zero_le _
  | cons c cs ih =>
    have first : 0 < (String.utf8EncodeChar c).length := by
      rw [String.length_utf8EncodeChar]
      exact c.utf8Size_pos
    rw [List.flatMap_cons, List.length_append, List.length_cons]
    omega

/-- The text of a plain value, in UTF-8, is parsed to this value. -/
theorem parse_compactText {j : Json} (plain : j.IsPlain) :
    parse (.ofBytes j.compactText.toUTF8.data.toList) = some j := by
  have read := plain.readsBack (2 * (j.compact.map some).length + 2) [] (by rw [List.length_map]; omega)
    endsNumber_nil
  rw [List.append_nil] at read
  rw [compactText, bytes_ofList, GappedText.ofBytes_utf8Encode, parse, read]
  rfl

end Json

end Deductions
