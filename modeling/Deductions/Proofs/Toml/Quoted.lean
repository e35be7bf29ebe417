import Deductions.Toml.Quoted
import Mathlib.Data.List.Infix

namespace Deductions

namespace Toml

theorem isTextChar_of_not_isControl {c : Char} (printable : isControl c = false) (inLine : c ≠ '\n') :
    isTextChar c = true := by
  simp only [isControl, Bool.or_eq_false_iff, Bool.and_eq_false_iff, decide_eq_false_iff_not, bne_eq_false_iff_eq,
    beq_eq_false_iff_ne] at printable
  simp only [isTextChar, Bool.or_eq_true, beq_iff_eq, Bool.and_eq_true, decide_eq_true_eq, bne_iff_ne]
  obtain ⟨(above | tab) | newline, notDelete⟩ := printable
  · exact .inr ⟨Nat.le_of_not_lt above, notDelete⟩
  · exact .inl tab
  · exact absurd newline inLine

theorem readNewline_of_isTextChar {c : Char} (isText : isTextChar c = true) (text : List Char) :
    readNewline (c :: text) = none := by
  unfold readNewline
  split
  next rest starts =>
    cases starts
    cases isText
  next rest starts =>
    cases starts
    cases isText
  · rfl

theorem readScalar_append {digits : List Char} {value : Nat} (number : hexNumber? digits = some value)
    (valid : value.isValidChar) (rest : List Char) :
    readScalar digits.length (digits ++ rest) = some (Char.ofNat value, rest) := by
  rw [readScalar, List.take_left, number, List.drop_left]
  simp [valid]

/-- The hexadecimal digits of a character with a number below 128, behind two zeros. -/
theorem hexNumber?_digits {n : Nat} (small : n < 128) : hexNumber? ['0', '0', (Nat.digitChar (n / 16)).toUpper,
    (Nat.digitChar (n % 16)).toUpper] = some n := by
  have all : ∀ n < 128, hexNumber? ['0', '0', (Nat.digitChar (n / 16)).toUpper,
    (Nat.digitChar (n % 16)).toUpper] = some n := by decide
  exact all n small

theorem readEscape_escapeNumber {c : Char} (control : isControl c = true) (rest : List Char) :
    readEscape ((escapeNumber c).tail ++ rest) = some (c, rest) := by
  have small : c.toNat < 128 := by
    simp only [isControl, Bool.or_eq_true, Bool.and_eq_true, decide_eq_true_eq, beq_iff_eq] at control
    omega
  have read := readScalar_append (hexNumber?_digits small) c.valid rest
  rw [Char.ofNat_toNat] at read
  exact read

/-- How a character is written in a string with escapes, of which `run` quotes stand before it: as an
escape, as itself where it has no meaning there, and over several lines also as the quote or the line
break that it is. -/
inductive IsWritten (lines : Bool) (run : Nat) (c : Char) (s : List Char) : Prop where
  | escape (body : List Char) (written : escaped lines run (c :: s) = '\\' :: (body ++ escaped lines 0 s))
      (read : ∀ rest, readEscape (body ++ rest) = some (c, rest))
      (inLine : ∀ rest, readContinuation (body ++ rest) = none)
  | plain (written : escaped lines run (c :: s) = c :: escaped lines 0 s) (isText : isTextChar c = true)
      (noQuote : c ≠ '"') (noBackslash : c ≠ '\\')
  | quote (isQuote : c = '"') (overLines : lines = true) (few : run < 2)
      (written : escaped lines run (c :: s) = '"' :: escaped lines (run + 1) s)
  | newline (isNewline : c = '\n') (overLines : lines = true)
      (written : escaped lines run (c :: s) = '\n' :: escaped lines 0 s)

theorem isWritten (lines : Bool) (run : Nat) (c : Char) (s : List Char) : IsWritten lines run c s := by
  by_cases quote : c = '"'
  · subst quote
    by_cases few : (lines && run < 2) = true
    · have written : escaped lines run ('"' :: s) = '"' :: escaped lines (run + 1) s := by
        rw [escaped, if_pos rfl, if_pos few]
      rw [Bool.and_eq_true, decide_eq_true_eq] at few
      exact .quote rfl few.1 few.2 written
    · refine .escape ['"'] ?_ (fun _ => rfl) fun _ => rfl
      rw [escaped, if_pos rfl, if_neg few]
      rfl
  by_cases newline : c = '\n'
  · subst newline
    cases lines with
    | true => exact .newline rfl rfl rfl
    | false => exact .escape ['n'] rfl (fun _ => rfl) fun _ => rfl
  by_cases special : c ∈ ['\x08', '\t', '\x0c', '\r', '\\']
  · simp only [List.mem_cons, List.not_mem_nil, or_false] at special
    rcases special with rfl | rfl | rfl | rfl | rfl
    · exact .escape ['b'] rfl (fun _ => rfl) fun _ => rfl
    · exact .escape ['t'] rfl (fun _ => rfl) fun _ => rfl
    · exact .escape ['f'] rfl (fun _ => rfl) fun _ => rfl
    · exact .escape ['r'] rfl (fun _ => rfl) fun _ => rfl
    · exact .escape ['\\'] rfl (fun _ => rfl) fun _ => rfl
  simp only [List.mem_cons, List.not_mem_nil, or_false, not_or] at special
  obtain ⟨noBackspace, noTab, noFeed, noReturn, noBackslash⟩ := special
  have written : escaped lines run (c :: s) =
      if isControl c then escapeNumber c ++ escaped lines 0 s else c :: escaped lines 0 s := by
    rw [escaped, if_neg quote, if_neg noBackspace, if_neg noTab, if_neg newline, if_neg noFeed, if_neg noReturn,
      if_neg noBackslash]
  cases control : isControl c with
  | true =>
    rw [control, if_pos rfl] at written
    exact .escape (escapeNumber c).tail written (readEscape_escapeNumber control) fun _ => rfl
  | false =>
    rw [control, if_neg Bool.false_ne_true] at written
    exact .plain written (isTextChar_of_not_isControl control newline) quote noBackslash

section

variable {fuel : Nat} {c : Char} {text text' s rest : List Char}

theorem readBasic_escape (escape : readEscape text = some (c, text'))
    (read : readBasic fuel text' = some (s, rest)) :
    readBasic (fuel + 1) ('\\' :: text) = some (c :: s, rest) := by
  rw [readBasic, escape]
  change (readBasic fuel text').bind _ = _
  rw [read]
  rfl

theorem readBasic_plain (isText : isTextChar c = true) (noQuote : c ≠ '"') (noBackslash : c ≠ '\\')
    (read : readBasic fuel text = some (s, rest)) : readBasic (fuel + 1) (c :: text) = some (c :: s, rest) := by
  rw [readBasic, if_pos isText, read]
  · rfl
  · exact noQuote
  · exact noBackslash

end

/-- A text is read back from its basic form. -/
theorem readBasic_escaped {s : List Char} {fuel : Nat} (enough : s.length < fuel) (run : Nat) (rest : List Char) :
    readBasic fuel (escaped false run s ++ '"' :: rest) = some (s, rest) := by
  induction s generalizing fuel run with
  | nil =>
    obtain ⟨fuel, rfl⟩ : ∃ n, fuel = n + 1 := Nat.exists_eq_succ_of_ne_zero (by omega)
    rw [escaped, List.nil_append, readBasic]
    exact nofun
  | cons c s ih =>
    rw [List.length_cons] at enough
    obtain ⟨fuel, rfl⟩ : ∃ n, fuel = n + 1 := Nat.exists_eq_succ_of_ne_zero (by omega)
    have later := ih (show s.length < fuel by omega) 0
    cases isWritten false run c s with
    | escape body written read _ =>
      rw [written, List.cons_append, List.append_assoc]
      exact readBasic_escape (read _) later
    | plain written isText noQuote noBackslash =>
      rw [written, List.cons_append]
      exact readBasic_plain isText noQuote noBackslash later
    | quote _ overLines => cases overLines
    | newline _ overLines => cases overLines

section

variable {fuel : Nat} {c : Char} {text text' s rest : List Char}

theorem readBasicLines_escape (escape : readEscape text = some (c, text')) (inLine : readContinuation text = none)
    (read : readBasicLines fuel text' = some (s, rest)) :
    readBasicLines (fuel + 1) ('\\' :: text) = some (c :: s, rest) := by
  rw [readBasicLines, inLine, escape]
  change (readBasicLines fuel text').bind _ = _
  rw [read]
  rfl

theorem readBasicLines_newline (read : readBasicLines fuel text = some (s, rest)) :
    readBasicLines (fuel + 1) ('\n' :: text) = some ('\n' :: s, rest) := by
  rw [readBasicLines, readNewline]
  · change (readBasicLines fuel text).bind _ = _
    rw [read]
    rfl
  all_goals exact nofun

/-- A quote belongs to the text unless two more follow it. -/
theorem readBasicLines_plain (isText : isTextChar c = true) (noBackslash : c ≠ '\\')
    (goesOn : c = '"' → ¬ ['"', '"'] <+: text) (read : readBasicLines fuel text = some (s, rest)) :
    readBasicLines (fuel + 1) (c :: text) = some (c :: s, rest) := by
  rw [readBasicLines, readNewline_of_isTextChar isText, read]
  · dsimp only
    rw [if_pos isText]
    rfl
  · exact fun _ isQuote follows => goesOn isQuote (follows ▸ ⟨_, rfl⟩)
  · exact fun _ isQuote follows => goesOn isQuote (follows ▸ ⟨_, rfl⟩)
  · exact fun _ isQuote follows => goesOn isQuote (follows ▸ ⟨_, rfl⟩)
  · exact noBackslash

/-- Up to two quotes at the end of the text stand right before the closing ones. -/
theorem readBasicLines_close {n : Nat} (few : n ≤ 2) (setOff : rest.head? ≠ some '"') :
    readBasicLines (fuel + 1) (List.replicate n '"' ++ '"' :: '"' :: '"' :: rest) =
      some (List.replicate n '"', rest) := by
  have others : ∀ after, rest ≠ '"' :: after := fun after same => setOff (congrArg List.head? same)
  match n, few with
  | 0, _ =>
    change readBasicLines (fuel + 1) ('"' :: '"' :: '"' :: rest) = _
    rw [readBasicLines]
    · rfl
    · exact fun _ => others _
    · exact fun _ => others _
    · exact nofun
  | 1, _ =>
    change readBasicLines (fuel + 1) ('"' :: '"' :: '"' :: '"' :: rest) = _
    rw [readBasicLines]
    · rfl
    · exact fun _ => others _
    · exact nofun
  | 2, _ =>
    change readBasicLines (fuel + 1) ('"' :: '"' :: '"' :: '"' :: '"' :: rest) = _
    rw [readBasicLines]
    · rfl
    · exact nofun

end

/-- What is written starts with a quote only for a quote that follows fewer than two others. -/
theorem head_escaped {run : Nat} {c : Char} (closed : c = '"' → 2 ≤ run) (s : List Char) :
    ∃ d text, escaped true run (c :: s) = d :: text ∧ d ≠ '"' := by
  cases isWritten true run c s with
  | escape body written => exact ⟨_, _, written, by decide⟩
  | plain written _ noQuote => exact ⟨_, _, written, noQuote⟩
  | quote isQuote _ few => exact absurd (closed isQuote) (Nat.not_le_of_lt few)
  | newline _ _ written => exact ⟨_, _, written, by decide⟩

/-- After a quote two more are written only where the text ends with at most one. -/
theorem not_quotes_of_escaped {run : Nat} (after : 1 ≤ run) {s : List Char} (more : s ≠ [])
    (notLast : s = ['"'] → 2 ≤ run) (rest : List Char) : ¬ ['"', '"'] <+: escaped true run s ++ rest := by
  obtain ⟨c, s, rfl⟩ := List.exists_cons_of_ne_nil more
  rintro ⟨tail, same⟩
  by_cases closed : c = '"' → 2 ≤ run
  · obtain ⟨d, text, written, noQuote⟩ := head_escaped closed s
    rw [written] at same
    exact noQuote (List.cons.inj same).1.symm
  · obtain ⟨rfl, few⟩ := Classical.not_imp.mp closed
    obtain ⟨d, s, rfl⟩ := List.exists_cons_of_ne_nil (l := s) fun none => few (notLast (by rw [none]))
    have third : d = '"' → 2 ≤ run + 1 := fun _ => by omega
    obtain ⟨e, text, written, noQuote⟩ := head_escaped third s
    have quote : escaped true run ('"' :: d :: s) = '"' :: escaped true (run + 1) (d :: s) := by
      rw [escaped, if_pos rfl, if_pos (by simpa using few)]
    rw [quote, written] at same
    exact noQuote (List.cons.inj (List.cons.inj same).2).1.symm

/-- A text is read back from its form over several lines. -/
theorem readBasicLines_escaped {s : List Char} {fuel : Nat} (enough : s.length < fuel) (run : Nat)
    {rest : List Char} (setOff : rest.head? ≠ some '"') :
    readBasicLines fuel (escaped true run s ++ '"' :: '"' :: '"' :: rest) = some (s, rest) := by
  induction s generalizing fuel run with
  | nil =>
    obtain ⟨fuel, rfl⟩ : ∃ n, fuel = n + 1 := Nat.exists_eq_succ_of_ne_zero (by omega)
    exact readBasicLines_close (n := 0) (by decide) setOff
  | cons c s ih =>
    rw [List.length_cons] at enough
    obtain ⟨fuel, rfl⟩ : ∃ n, fuel = n + 1 := Nat.exists_eq_succ_of_ne_zero (by omega)
    have later := ih (show s.length < fuel by omega)
    cases isWritten true run c s with
    | escape body written read inLine =>
      rw [written, List.cons_append, List.append_assoc]
      exact readBasicLines_escape (read _) (inLine _) (later 0)
    | plain written isText noQuote noBackslash =>
      rw [written, List.cons_append]
      exact readBasicLines_plain isText noBackslash (fun isQuote => absurd isQuote noQuote) (later 0)
    | newline isNewline _ written =>
      rw [written, isNewline]
      exact readBasicLines_newline (later 0)
    | quote isQuote _ few written =>
      rw [written, isQuote]
      -- the quotes at the very end are read together with the closing ones
      by_cases last : s = []
      · rw [last]
        exact readBasicLines_close (n := 1) (by decide) setOff
      by_cases second : s = ['"'] ∧ run = 0
      · rw [second.1, second.2]
        exact readBasicLines_close (n := 2) (by decide) setOff
      · refine readBasicLines_plain (by decide) (by decide) (fun _ => ?_) (later (run + 1))
        refine not_quotes_of_escaped (by omega) last (fun single => ?_) _
        have started : run ≠ 0 := fun none => second ⟨single, none⟩
        omega

theorem readLiteral_append {s : List Char} (areText : ∀ c ∈ s, isTextChar c = true ∧ c ≠ '\x27') (rest : List Char) :
    readLiteral (s ++ '\x27' :: rest) = some (s, rest) := by
  induction s with
  | nil => rw [List.nil_append, readLiteral]
  | cons c s ih =>
    obtain ⟨⟨isText, noQuote⟩, later⟩ := List.forall_mem_cons.mp areText
    rw [List.cons_append, readLiteral, if_pos isText, ih later]
    · rfl
    · exact noQuote

section

variable {c : Char} {text s rest : List Char}

/-- A quote belongs to the text unless two more follow it. -/
theorem readLiteralLines_plain (isText : c = '\n' ∨ isTextChar c = true)
    (goesOn : c = '\x27' → ¬ ['\x27', '\x27'] <+: text) (read : readLiteralLines text = some (s, rest)) :
    readLiteralLines (c :: text) = some (c :: s, rest) := by
  have accepted : (c == '\n' || isTextChar c) = true := by simpa using isText
  rw [readLiteralLines, if_pos accepted, read]
  · rfl
  · exact fun _ isQuote follows => goesOn isQuote (follows ▸ ⟨_, rfl⟩)
  · exact fun _ isQuote follows => goesOn isQuote (follows ▸ ⟨_, rfl⟩)
  · exact fun _ isQuote follows => goesOn isQuote (follows ▸ ⟨_, rfl⟩)
  · rintro _ rfl
    exact absurd isText (by decide)

/-- Up to two quotes at the end of the text stand right before the closing ones. -/
theorem readLiteralLines_close {n : Nat} (few : n ≤ 2) (setOff : rest.head? ≠ some '\x27') :
    readLiteralLines (List.replicate n '\x27' ++ '\x27' :: '\x27' :: '\x27' :: rest) =
      some (List.replicate n '\x27', rest) := by
  have others : ∀ after, rest ≠ '\x27' :: after := fun after same => setOff (congrArg List.head? same)
  match n, few with
  | 0, _ =>
    change readLiteralLines ('\x27' :: '\x27' :: '\x27' :: rest) = _
    rw [readLiteralLines]
    · rfl
    · exact fun _ => others _
    · exact fun _ => others _
  | 1, _ =>
    change readLiteralLines ('\x27' :: '\x27' :: '\x27' :: '\x27' :: rest) = _
    rw [readLiteralLines]
    · rfl
    · exact fun _ => others _
  | 2, _ => rfl

end

/-- A text without three quotes in a row is read back from its literal form over several lines. -/
theorem readLiteralLines_append {s : List Char} (areText : ∀ c ∈ s, c = '\n' ∨ isTextChar c = true)
    (runs : ¬ List.replicate 3 '\x27' <:+: s) {rest : List Char} (setOff : rest.head? ≠ some '\x27') :
    readLiteralLines (s ++ '\x27' :: '\x27' :: '\x27' :: rest) = some (s, rest) := by
  induction s with
  | nil => exact readLiteralLines_close (n := 0) (by decide) setOff
  | cons c s ih =>
    obtain ⟨isText, areText⟩ := List.forall_mem_cons.mp areText
    have later := ih areText fun run => runs (List.infix_cons run)
    by_cases last : c = '\x27' ∧ s = []
    · rw [last.1, last.2]
      exact readLiteralLines_close (n := 1) (by decide) setOff
    by_cases second : c = '\x27' ∧ s = ['\x27']
    · rw [second.1, second.2]
      exact readLiteralLines_close (n := 2) (by decide) setOff
    refine readLiteralLines_plain isText (fun isQuote => ?_) later
    -- of the next two characters one at least belongs to the text
    match s, last, second with
    | [], last, _ => exact absurd ⟨isQuote, rfl⟩ last
    | [d], _, second =>
      rintro ⟨tail, same⟩
      exact second ⟨isQuote, by rw [(List.cons.inj same).1]⟩
    | d :: e :: s, _, _ =>
      rintro ⟨tail, same⟩
      obtain ⟨first, same⟩ := List.cons.inj same
      obtain ⟨next, _⟩ := List.cons.inj same
      exact runs ⟨[], s, by rw [isQuote, ← first, ← next]; rfl⟩

/-- The longest run so far and the one at the end, with one more character. -/
def addRun (c : Char) (runs : Nat × Nat) (d : Char) : Nat × Nat :=
  let current := if d = c then runs.2 + 1 else 0
  (max runs.1 current, current)

theorem le_foldl_addRun (c : Char) (s : List Char) (runs : Nat × Nat) : runs.1 ≤ (s.foldl (addRun c) runs).1 := by
  induction s generalizing runs with
  | nil => exact Nat.le_refl _
  | cons d s ih => exact Nat.le_trans (Nat.le_max_left _ _) (ih (addRun c runs d))

theorem foldl_addRun_replicate (c : Char) (n : Nat) (runs : Nat × Nat) :
    ((List.replicate n c).foldl (addRun c) runs).2 = runs.2 + n := by
  induction n generalizing runs with
  | zero => rfl
  | succ n ih =>
    rw [List.replicate_succ, List.foldl_cons, ih, addRun, if_pos rfl]
    omega

theorem longestRun_eq (c : Char) (s : List Char) : longestRun c s = (s.foldl (addRun c) (0, 0)).1 := rfl

/-- The text has no run that is longer than its longest one. -/
theorem le_longestRun {c : Char} {n : Nat} {s : List Char} (run : List.replicate n c <:+: s) :
    n ≤ longestRun c s := by
  obtain ⟨front, back, rfl⟩ := run
  cases n with
  | zero => exact Nat.zero_le _
  | succ n =>
    rw [longestRun_eq, List.replicate_succ', ← List.append_assoc, List.foldl_append, List.foldl_append,
      List.foldl_append, List.foldl_cons, List.foldl_nil]
    refine Nat.le_trans ?_ (le_foldl_addRun c back _)
    rw [addRun, if_pos rfl, foldl_addRun_replicate]
    omega

theorem of_formOf_literal {s : List Char} (form : formOf s = .literal) :
    ∀ c ∈ s, isTextChar c = true ∧ c ≠ '\x27' := by
  unfold formOf at form
  dsimp only at form
  split_ifs at form with _ plain
  simp only [Bool.and_eq_true, Bool.not_eq_true', List.any_eq_false, List.contains_eq_mem, decide_eq_false_iff_not]
    at plain
  obtain ⟨⟨printable, inLine⟩, noQuote⟩ := plain
  intro c member
  exact ⟨isTextChar_of_not_isControl (by simpa using printable c member) (fun newline => inLine (newline ▸ member)),
    fun isQuote => noQuote (isQuote ▸ member)⟩

theorem of_formOf_literalLines {s : List Char} (form : formOf s = .literalLines) :
    (∀ c ∈ s, c = '\n' ∨ isTextChar c = true) ∧ ¬ List.replicate 3 '\x27' <:+: s := by
  unfold formOf at form
  dsimp only at form
  split_ifs at form with _ _ _ plain
  simp only [Bool.and_eq_true, Bool.not_eq_true', List.any_eq_false, decide_eq_true_eq] at plain
  obtain ⟨printable, short⟩ := plain
  refine ⟨fun c member => ?_, fun run => ?_⟩
  · by_cases newline : c = '\n'
    · exact .inl newline
    · exact .inr (isTextChar_of_not_isControl (by simpa using printable c member) newline)
  · have long := le_longestRun run
    omega

/-- What does not start with a quote does not go on with the quotes of a string before it. -/
def IsSetOff (rest : List Char) : Prop := ∀ c, rest.head? = some c → c ≠ '"' ∧ c ≠ '\x27'

/-- The line break that is put in front of a text of several lines is taken off again, and no other. -/
theorem skipNewline_start {s body : List Char} (starts : '\n' ∉ s → readNewline body = none) :
    skipNewline ((if s.contains '\n' then ['\n'] else []) ++ body) = body := by
  rw [List.contains_eq_mem]
  by_cases newline : '\n' ∈ s
  · rw [if_pos (by simpa using newline)]
    rfl
  · rw [if_neg (by simpa using newline), List.nil_append, skipNewline, starts newline, Option.getD_none]

theorem readNewline_escaped {s : List Char} (inLine : '\n' ∉ s) (rest : List Char) :
    readNewline (escaped true 0 s ++ '"' :: rest) = none := by
  cases s with
  | nil => exact readNewline_of_isTextChar (by decide) _
  | cons c s =>
    cases isWritten true 0 c s with
    | escape body written =>
      rw [written]
      exact readNewline_of_isTextChar (by decide) _
    | plain written isText =>
      rw [written]
      exact readNewline_of_isTextChar isText _
    | quote _ _ _ written =>
      rw [written]
      exact readNewline_of_isTextChar (by decide) _
    | newline isNewline => exact absurd (isNewline ▸ List.mem_cons_self) inLine

theorem readQuoted_basic {text : List Char} (single : ¬ ['"', '"'] <+: text) :
    readQuoted ('"' :: text) = readBasic (text.length + 1) text := by
  rw [readQuoted]
  exact fun _ follows => single (follows ▸ ⟨_, rfl⟩)

theorem readQuoted_literal {text : List Char} (single : ¬ ['\x27', '\x27'] <+: text) :
    readQuoted ('\x27' :: text) = readLiteral text := by
  rw [readQuoted]
  exact fun _ follows => single (follows ▸ ⟨_, rfl⟩)

theorem length_le_length_escaped (lines : Bool) (run : Nat) (s : List Char) :
    s.length ≤ (escaped lines run s).length := by
  induction s generalizing run with
  | nil => exact Nat.zero_le _
  | cons c s ih =>
    cases isWritten lines run c s with
    | escape body written =>
      have later := ih 0
      rw [written, List.length_cons, List.length_cons, List.length_append]
      omega
    | plain written => simpa only [written, List.length_cons, Nat.add_le_add_iff_right] using ih 0
    | quote _ _ _ written => simpa only [written, List.length_cons, Nat.add_le_add_iff_right] using ih (run + 1)
    | newline _ _ written => simpa only [written, List.length_cons, Nat.add_le_add_iff_right] using ih 0

section

variable {s rest : List Char}

/-- An empty string is told from the start of a string over several lines by what follows it. -/
theorem readQuoted_of_basic (form : formOf s = .basic) (setOff : rest.head? ≠ some '"') :
    readQuoted (quoted s ++ rest) = some (s, rest) := by
  have written : quoted s ++ rest = '"' :: (escaped false 0 s ++ '"' :: rest) := by
    simp [quoted, form, QuotedForm.quotes, QuotedForm.lines, QuotedForm.body]
  rw [written, readQuoted_basic, readBasic_escaped]
  · have short := length_le_length_escaped false 0 s
    rw [List.length_append, List.length_cons]
    omega
  · rintro ⟨tail, same⟩
    cases s with
    | nil => exact setOff (by rw [← (List.cons.inj same).2]; rfl)
    | cons c s =>
      cases isWritten false 0 c s with
      | escape body written =>
        rw [written] at same
        cases (List.cons.inj same).1
      | plain written _ isOther =>
        rw [written] at same
        exact isOther (List.cons.inj same).1.symm
      | quote _ overLines => cases overLines
      | newline _ overLines => cases overLines

theorem readQuoted_of_literal (form : formOf s = .literal) (setOff : rest.head? ≠ some '\x27') :
    readQuoted (quoted s ++ rest) = some (s, rest) := by
  have areText := of_formOf_literal form
  have written : quoted s ++ rest = '\x27' :: (s ++ '\x27' :: rest) := by
    simp [quoted, form, QuotedForm.quotes, QuotedForm.lines, QuotedForm.body]
  rw [written, readQuoted_literal, readLiteral_append areText]
  rintro ⟨tail, same⟩
  cases s with
  | nil => exact setOff (by rw [← (List.cons.inj same).2]; rfl)
  | cons c s => exact (areText c List.mem_cons_self).2 (List.cons.inj same).1.symm

theorem readQuoted_of_basicLines (form : formOf s = .basicLines) (setOff : rest.head? ≠ some '"') :
    readQuoted (quoted s ++ rest) = some (s, rest) := by
  have written : quoted s ++ rest = '"' :: '"' :: '"' ::
      ((if s.contains '\n' then ['\n'] else []) ++ (escaped true 0 s ++ '"' :: '"' :: '"' :: rest)) := by
    simp [quoted, form, QuotedForm.quotes, QuotedForm.lines, QuotedForm.body]
  rw [written, readQuoted, skipNewline_start fun inLine => readNewline_escaped inLine _]
  refine readBasicLines_escaped ?_ 0 setOff
  have short := length_le_length_escaped true 0 s
  rw [List.length_append, List.length_append]
  omega

theorem readQuoted_of_literalLines (form : formOf s = .literalLines) (setOff : rest.head? ≠ some '\x27') :
    readQuoted (quoted s ++ rest) = some (s, rest) := by
  obtain ⟨areText, runs⟩ := of_formOf_literalLines form
  have written : quoted s ++ rest = '\x27' :: '\x27' :: '\x27' ::
      ((if s.contains '\n' then ['\n'] else []) ++ (s ++ '\x27' :: '\x27' :: '\x27' :: rest)) := by
    simp [quoted, form, QuotedForm.quotes, QuotedForm.lines, QuotedForm.body]
  rw [written, readQuoted, skipNewline_start fun inLine => ?_]
  · exact readLiteralLines_append areText runs setOff
  · cases s with
    | nil => rfl
    | cons c s =>
      have isText := (areText c List.mem_cons_self).resolve_left fun newline => inLine (newline ▸ List.mem_cons_self)
      exact readNewline_of_isTextChar isText _

end

/-- Every text is read back from the form in which it is written. -/
theorem readQuoted_quoted (s : List Char) {rest : List Char} (setOff : IsSetOff rest) :
    readQuoted (quoted s ++ rest) = some (s, rest) := by
  have noQuote : rest.head? ≠ some '"' := fun first => (setOff _ first).1 rfl
  have noApostrophe : rest.head? ≠ some '\x27' := fun first => (setOff _ first).2 rfl
  cases form : formOf s with
  | basic => exact readQuoted_of_basic form noQuote
  | literal => exact readQuoted_of_literal form noApostrophe
  | basicLines => exact readQuoted_of_basicLines form noQuote
  | literalLines => exact readQuoted_of_literalLines form noApostrophe

end Toml

end Deductions
