import Deductions.Proofs.Toml.Quoted
import Deductions.Toml.Reader

namespace Deductions

namespace Toml

variable {c : Char} {text rest : List Char}

/-- The text starts with a line that is not blank. -/
inductive IsLine : List Char → Prop where
  | start {c : Char} (visible : c ∉ [' ', '\t', '\n', '\r', '#']) (rest : List Char) : IsLine (c :: rest)

namespace IsLine

theorem append (isLine : IsLine text) (rest : List Char) : IsLine (text ++ rest) := by
  cases isLine with
  | start visible text => exact .start visible (text ++ rest)

theorem skipBlanks_eq (isLine : IsLine text) : skipBlanks text = text := by
  obtain ⟨visible, text⟩ := isLine
  refine List.dropWhile_cons_of_neg fun blank => visible ?_
  rw [isBlankChar, Bool.or_eq_true, beq_iff_eq, beq_iff_eq] at blank
  rcases blank with rfl | rfl <;> simp

theorem readLineEnd_eq (isLine : IsLine text) : readLineEnd text = none := by
  rw [readLineEnd, isLine.skipBlanks_eq]
  obtain ⟨visible, text⟩ := isLine
  simp only [List.mem_cons, List.not_mem_nil, or_false, not_or] at visible
  obtain ⟨_, _, noNewline, noReturn, noComment⟩ := visible
  rw [skipComment]
  · change readNewline _ = none
    rw [readNewline]
    · exact fun _ same => noNewline (List.cons.inj same).1
    · exact fun _ same => noReturn (List.cons.inj same).1
  · exact fun _ same => noComment (List.cons.inj same).1

end IsLine

/-- Reading the text turns the document `d` into `d'`, whatever lines follow. -/
def Reads (d : Document) (text : List Char) (d' : Document) : Prop :=
  ∃ lines ≤ text.length, ∀ fuel rest, readLines (fuel + lines) d (text ++ rest) = readLines fuel d' rest

namespace Reads

variable {d d' d'' : Document}

theorem refl (d : Document) : Reads d [] d := ⟨0, Nat.le_refl 0, fun _ _ => rfl⟩

theorem trans {later : List Char} (first : Reads d text d') (second : Reads d' later d'') :
    Reads d (text ++ later) d'' := by
  obtain ⟨lines, enough, first⟩ := first
  obtain ⟨more, enough', second⟩ := second
  refine ⟨more + lines, by rw [List.length_append]; omega, fun fuel rest => ?_⟩
  rw [List.append_assoc, ← Nat.add_assoc, first, second]

theorem newline (d : Document) : Reads d ['\n'] d := ⟨1, Nat.le_refl 1, fun _ _ => rfl⟩

theorem line (isLine : IsLine text) (read : ∀ rest, readLine d (text ++ rest) = some (d', rest)) :
    Reads d text d' := by
  refine ⟨1, ?_, fun fuel rest => ?_⟩
  · cases isLine
    exact Nat.le_add_left _ _
  · have isLine := isLine.append rest
    rw [readLines, isLine.skipBlanks_eq]
    split
    next none =>
      rw [none] at isLine
      cases isLine
    · rw [isLine.readLineEnd_eq, read]
      rfl

/-- A text that is read from the beginning of a document is the document. -/
theorem parse_eq (reads : Reads {} text d) (unmarked : text.head? ≠ some '\uFEFF') :
    parse text = some (.table .headed d.root) := by
  obtain ⟨lines, enough, read⟩ := reads
  have all : readLines (text.length + 1) {} text = some d := by
    obtain ⟨fuel, same⟩ := Nat.exists_eq_add_of_le' enough
    have read := read (fuel + 1) []
    rw [List.append_nil] at read
    rw [show text.length + 1 = fuel + 1 + lines by omega, read]
    rfl
  rw [parse, all]
  · rfl
  · rintro _ rfl
    exact unmarked rfl

end Reads

/-- A key that is written without quotes. -/
def IsBare (key : String) : Prop := key.toList ≠ [] ∧ key.toList.all isKeyChar = true

instance (key : String) : Decidable (IsBare key) := inferInstanceAs (Decidable (_ ∧ _))

namespace IsBare

variable {key : String}

theorem isKeyChar_of_mem (bare : IsBare key) (member : c ∈ key.toList) : isKeyChar c = true :=
  List.all_eq_true.mp bare.2 c member

/-- What starts with a bare key is told by its first character from anything else. -/
theorem exists_cons (bare : IsBare key) (rest : List Char) : ∃ c text, key.toList ++ rest = c :: text ∧
    c ∉ [' ', '\t', '\n', '\r', '#', '"', '\x27', '['] := by
  obtain ⟨c, word, spelled⟩ := List.exists_cons_of_ne_nil bare.1
  refine ⟨c, word ++ rest, by rw [spelled, List.cons_append], fun member => ?_⟩
  have others : ∀ d ∈ [' ', '\t', '\n', '\r', '#', '"', '\x27', '['], isKeyChar d = false := by simp [isKeyChar]
  exact Bool.eq_false_iff.mp (others c member) (bare.isKeyChar_of_mem (spelled ▸ List.mem_cons_self))

theorem isLine (bare : IsBare key) (rest : List Char) : IsLine (key.toList ++ rest) := by
  obtain ⟨c, text, starts, visible⟩ := bare.exists_cons rest
  rw [starts]
  exact .start (fun member => visible (List.mem_append_left ['"', '\x27', '['] member)) text

theorem readSimpleKey_eq (bare : IsBare key) (ends : isKeyChar c = false) :
    readSimpleKey (key.toList ++ c :: rest) = some (key, c :: rest) := by
  have taken : (key.toList ++ c :: rest).takeWhile isKeyChar = key.toList := by
    rw [List.takeWhile_append_of_pos fun _ => bare.isKeyChar_of_mem, List.takeWhile_cons_of_neg (by simp [ends]), List.append_nil]
  have dropped : (key.toList ++ c :: rest).dropWhile isKeyChar = c :: rest := by
    rw [List.dropWhile_append_of_pos fun _ => bare.isKeyChar_of_mem, List.dropWhile_cons_of_neg (by simp [ends])]
  obtain ⟨d, text, starts, unquoted⟩ := bare.exists_cons (c :: rest)
  rw [readSimpleKey, taken, dropped]
  · split
    next none => exact absurd none bare.1
    · rw [String.ofList_toList]
  · rintro _ same
    rw [starts] at same
    cases same
    simp at unquoted
  · rintro _ same
    rw [starts] at same
    cases same
    simp at unquoted

theorem readKey_eq (bare : IsBare key) (ends : isKeyChar c = false) (after : skipBlanks (c :: rest) = text)
    (single : text.head? ≠ some '.') : readKey (key.toList ++ c :: rest) = some (([], key), text) := by
  have keys : readKeys (nestingLimit - 1) (key.toList ++ c :: rest) = some ([key], text) := by
    rw [nestingLimit, Nat.add_sub_cancel 79 1, readKeys, (bare.isLine _).skipBlanks_eq, bare.readSimpleKey_eq ends]
    dsimp only [bind, Option.bind]
    rw [after]
    split
    · exact absurd rfl single
    · rfl
  rw [readKey, keys]
  rfl

end IsBare

/-- The text is read as the value `t` where its line ends with it. -/
structure IsValue (text : List Char) (t : Toml) : Prop where
  visible : IsLine text
  read : ∀ fuel depth rest, readValue (fuel + 2) (depth + 1) (text ++ '\n' :: rest) = some (t, '\n' :: rest)

theorem exists_quoted_cons (s : List Char) : ∃ c text, quoted s = c :: text ∧ (c = '"' ∨ c = '\x27') := by
  rw [quoted]
  cases formOf s with
  | basic => exact ⟨_, _, rfl, .inl rfl⟩
  | literal => exact ⟨_, _, rfl, .inr rfl⟩
  | basicLines => exact ⟨_, _, rfl, .inl rfl⟩
  | literalLines => exact ⟨_, _, rfl, .inr rfl⟩

theorem isValue_quoted (s : List Char) : IsValue (quoted s) (.string (String.ofList s)) := by
  obtain ⟨c, text, written, isQuote⟩ := exists_quoted_cons s
  constructor
  · rw [written]
    refine .start ?_ text
    rcases isQuote with rfl | rfl <;> decide
  · intro fuel depth rest
    have setOff : IsSetOff ('\n' :: rest) := by
      rintro _ ⟨⟩
      decide
    have read := readQuoted_quoted s setOff
    rw [written, List.cons_append] at read ⊢
    rcases isQuote with rfl | rfl
    · rw [readValue, readScalarValue, read]
      · rfl
      · nofun
      · nofun
    · rw [readValue, readScalarValue, read]
      · rfl
      · nofun
      · nofun

theorem isValue_empty : IsValue ['[', ']'] (.array []) where
  visible := .start (by decide) _
  read fuel depth rest := by
    have skipped : skipLayout (']' :: '\n' :: rest).length (']' :: '\n' :: rest) = ']' :: '\n' :: rest := rfl
    simp only [List.cons_append, List.nil_append, readValue]
    rw [skipped, readElems]
    · rfl
    · nofun

namespace Reads

variable {key : String} {d d' : Document}

/-- A binding, whose value ends where its line does. -/
theorem binding (bare : IsBare key) {value : List Char} {t : Toml} (isValue : IsValue value t)
    (bound : d.assign [] key t = some d') :
    Reads d (key.toList ++ [' ', '=', ' '] ++ value ++ ['\n']) d' := by
  rw [List.append_assoc, List.append_assoc]
  refine line (bare.isLine _) fun rest => ?_
  have written : key.toList ++ ([' ', '=', ' '] ++ (value ++ ['\n'])) ++ rest =
      key.toList ++ ' ' :: '=' :: ' ' :: (value ++ '\n' :: rest) := by simp
  have readKey : readKey (key.toList ++ ' ' :: '=' :: ' ' :: (value ++ '\n' :: rest)) =
      some (([], key), '=' :: ' ' :: (value ++ '\n' :: rest)) := bare.readKey_eq (by decide) rfl nofun
  have skipped : skipBlanks (' ' :: (value ++ '\n' :: rest)) = value ++ '\n' :: rest :=
    (isValue.visible.append _).skipBlanks_eq
  have readValue : readValue (2 * (' ' :: (value ++ '\n' :: rest)).length + 2) (nestingLimit - 1)
      (value ++ '\n' :: rest) = some (t, '\n' :: rest) := isValue.read _ _ rest
  have binding : readBinding d (key.toList ++ ' ' :: '=' :: ' ' :: (value ++ '\n' :: rest)) = some (d', rest) := by
    rw [readBinding, readKey, Option.bind_eq_bind, Option.bind_some]
    dsimp only
    rw [readChar, if_pos rfl, Option.bind_eq_bind, Option.bind_some, skipped, readValue]
    change (d.assign [] key t).bind _ = _
    rw [bound]
    rfl
  obtain ⟨c, text, starts, visible⟩ := bare.exists_cons (' ' :: '=' :: ' ' :: (value ++ '\n' :: rest))
  rw [written, ← binding, starts, readLine]
  rintro _ same
  cases same
  simp at visible

/-- A header opens another table of an array. -/
theorem element (bare : IsBare key) (opened : d.enter openElement [] key = some d') :
    Reads d ('[' :: '[' :: key.toList ++ [']', ']', '\n']) d' := by
  refine line (.start (by decide) _) fun rest => ?_
  have ends : isKeyChar ']' = false := by decide
  have written : '[' :: '[' :: key.toList ++ [']', ']', '\n'] ++ rest =
      '[' :: '[' :: (key.toList ++ ']' :: ']' :: '\n' :: rest) := by simp
  rw [written, readLine, readHeader, bare.readKey_eq ends rfl nofun]
  change (d.enter openElement [] key).bind _ = _
  rw [opened]
  rfl

end Reads

theorem setEntry_single (key : String) (value other : Toml) :
    setEntry key value [(key, other)] = [(key, value)] := by
  rw [setEntry, List.map_singleton, if_pos (beq_self_eq_true key)]

namespace Document

/-- The document of one array of tables, the last of which is open. -/
def ofTables (array : String) : List Entries → Document
  | [] => {}
  | first :: others => ⟨[(array, .tables (first :: others))], [array]⟩

variable (array : String) (elems : List Entries) (last : Entries)

theorem ofTables_concat : ofTables array (elems ++ [last]) = ⟨[(array, .tables (elems ++ [last]))], [array]⟩ := by
  cases elems <;> rfl

theorem enter_ofTables :
    (ofTables array elems).enter openElement [] array = some (ofTables array (elems ++ [[]])) := by
  rw [ofTables_concat]
  cases elems with
  | nil => rfl
  | cons first others =>
    simp [ofTables, enter, modify, openElement, setEntry_single]

theorem assign_ofTables {key : String} (value : Toml) (new : last.lookup key = none) :
    (ofTables array (elems ++ [last])).assign [] key value =
      some (ofTables array (elems ++ [last ++ [(key, value)]])) := by
  have added : Toml.assign [] key value .headed last = some (last ++ [(key, value)]) := by
    simp [Toml.assign, modify, addEntry, new]
  simp [ofTables_concat, assign, modify, added, setEntry_single]

end Document

end Toml

end Deductions
