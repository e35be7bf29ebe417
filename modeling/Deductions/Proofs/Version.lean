import Deductions.Proofs.Numeral
import Deductions.Version.Tag

namespace Deductions

theorem isBlank_of_isAlphanum {c : Char} (alphanum : c.isAlphanum = true) : isBlank c = false := by
  change ((decide ('A'.val ≤ c.val ∧ c.val ≤ 'Z'.val) || decide ('a'.val ≤ c.val) && decide (c.val ≤ 'z'.val)) ||
    decide ('0'.val ≤ c.val) && decide (c.val ≤ '9'.val)) = true at alphanum
  simp only [Bool.or_eq_true, Bool.and_eq_true, decide_eq_true_eq, UInt32.le_iff_toNat_le] at alphanum
  have value : c.toNat = c.val.toNat := rfl
  have letters : 'A'.val.toNat = 65 ∧ 'Z'.val.toNat = 90 ∧ 'a'.val.toNat = 97 ∧ 'z'.val.toNat = 122 ∧
    '0'.val.toNat = 48 ∧ '9'.val.toNat = 57 := by decide
  refine Bool.eq_false_iff.mpr fun blank => ?_
  simp only [isBlank, Bool.or_eq_true, Bool.and_eq_true, decide_eq_true_eq, beq_iff_eq] at blank
  omega

theorem trimBlank_of_visible {text : List Char} (visible : ∀ c ∈ text, isBlank c = false) :
    trimBlank text = text := by
  have kept : ∀ l : List Char, (∀ c ∈ l, isBlank c = false) → l.dropWhile isBlank = l := by
    intro l visible
    cases l with
    | nil => rfl
    | cons c l => rw [List.dropWhile_cons_of_neg (by simp [visible c List.mem_cons_self])]
  rw [trimBlank, kept text visible, kept _ fun c member => visible c (List.mem_reverse.mp member),
    List.reverse_reverse]

theorem Label.all_isLabelChar (l : Label) : ∀ c ∈ l.text.toList, Version.isLabelChar c = true := by
  have valid := l.valid
  rw [isLabel, Bool.and_eq_true, List.all_eq_true] at valid
  exact valid.2

namespace Version

/-- What does not go on with the run of characters before it. -/
def Ends (run : Char → Bool) (rest : List Char) : Prop := ∀ c, rest.head? = some c → run c = false

theorem takeWhile_append_of_ends {run : Char → Bool} {front rest : List Char}
    (inside : ∀ c ∈ front, run c = true) (ends : Ends run rest) :
    (front ++ rest).takeWhile run = front ∧ (front ++ rest).dropWhile run = rest := by
  rw [List.takeWhile_append_of_pos inside, List.dropWhile_append_of_pos inside]
  cases rest with
  | nil => exact ⟨List.append_nil _, rfl⟩
  | cons c rest =>
    have stops : ¬ run c = true := by simp [ends c rfl]
    rw [List.takeWhile_cons_of_neg stops, List.dropWhile_cons_of_neg stops]
    exact ⟨List.append_nil _, rfl⟩

theorem readNumber_toDigits (part : VersionPart) (n : UInt64) {rest : List Char}
    (ends : Ends Char.isDigit rest) :
    readNumber part (Nat.toDigits 10 n.toNat ++ rest) = .ok (n, rest) := by
  obtain ⟨taken, left⟩ := takeWhile_append_of_ends (fun _ => isDigit_of_mem_toDigits) ends
  have value : numeral (Nat.toDigits 10 n.toNat) = n.toNat := foldl_toDigits n.toNat
  have small : n.toNat < UInt64.size := n.toNat_lt
  rw [readNumber, taken, left]
  split
  next none => exact absurd none Nat.toDigits_ne_nil
  next none => exact absurd none Nat.toDigits_ne_nil
  next second more idle =>
    have zero : (Nat.toDigits 10 n.toNat).head? = some '0' := by rw [idle]; rfl
    have single := toDigits_eq_zero zero
    rw [idle] at single
    cases single
  next => rw [value, if_pos small, UInt64.ofNat_toNat]

theorem label?_toList (l : Label) : label? l.text.toList = some l := by
  have valid : isLabel (String.ofList l.text.toList) = true := by
    rw [String.ofList_toList]
    exact l.valid
  rw [label?, dif_pos valid]
  simp only [String.ofList_toList]

section

variable {part : VersionPart} {l : Label} {rest : List Char}

theorem readLabels_last (plain : ¬ (part = .preRelease ∧ l.hasLeadingZero = true))
    (ends : Ends isLabelChar rest) (noDot : rest.head? ≠ some '.') :
    readLabels part (l.text.toList ++ rest) = .ok ([l], rest) := by
  obtain ⟨taken, left⟩ := takeWhile_append_of_ends l.all_isLabelChar ends
  rw [readLabels, taken, label?_toList]
  dsimp only
  rw [if_neg plain]
  split
  next after =>
    rw [left] at after
    exact absurd (congrArg List.head? after) noDot
  next => rw [left]

theorem readLabels_more (plain : ¬ (part = .preRelease ∧ l.hasLeadingZero = true)) {labels : List Label}
    {last : List Char} (more : readLabels part rest = .ok (labels, last)) :
    readLabels part (l.text.toList ++ '.' :: rest) = .ok (l :: labels, last) := by
  have ends : Ends isLabelChar ('.' :: rest) := by
    rintro c ⟨⟩
    decide
  obtain ⟨taken, left⟩ := takeWhile_append_of_ends l.all_isLabelChar ends
  rw [readLabels, taken, label?_toList]
  dsimp only
  rw [if_neg plain]
  split
  next rest' after =>
    rw [left] at after
    cases after
    rw [more]
    rfl
  next none => exact absurd left (none rest)

end

/-- Labels as they are written, without the mark in front of them. -/
def labelsText (labels : List Label) : List Char := ['.'].intercalate (labels.map fun l => l.text.toList)

theorem readLabels_labelsText {part : VersionPart} {labels : List Label} (some : labels ≠ [])
    (plain : part = .preRelease → ∀ l ∈ labels, l.hasLeadingZero = false) {rest : List Char}
    (ends : Ends isLabelChar rest) (noDot : rest.head? ≠ Option.some '.') :
    readLabels part (labelsText labels ++ rest) = .ok (labels, rest) := by
  induction labels with
  | nil => exact absurd rfl some
  | cons l labels ih =>
    have first : ¬ (part = .preRelease ∧ l.hasLeadingZero = true) := by
      rintro ⟨isPre, leading⟩
      rw [plain isPre l List.mem_cons_self] at leading
      cases leading
    cases labels with
    | nil =>
      rw [labelsText, List.map_singleton, List.intercalate_singleton]
      exact readLabels_last first ends noDot
    | cons second labels =>
      have later := ih nofun fun isPre l member => plain isPre l (List.mem_cons_of_mem _ member)
      rw [labelsText, List.map_cons, List.map_cons, List.intercalate_cons_cons, List.append_assoc,
        List.append_assoc]
      exact readLabels_more first later

/-- Labels with the mark in front of them, if there are any. -/
def markedText (mark : Char) (labels : List Label) : List Char :=
  if labels.isEmpty then [] else mark :: labelsText labels

theorem readMarked_markedText {mark : Char} {part : VersionPart} {labels : List Label}
    (plain : part = .preRelease → ∀ l ∈ labels, l.hasLeadingZero = false) {rest : List Char}
    (ends : Ends isLabelChar rest) (noDot : rest.head? ≠ some '.') (unmarked : rest.head? ≠ some mark) :
    readMarked mark part (markedText mark labels ++ rest) = .ok (labels, rest) := by
  cases labels with
  | nil =>
    change readMarked mark part rest = _
    cases rest with
    | nil => rfl
    | cons c rest => rw [readMarked, if_neg fun same => unmarked (congrArg some same)]
  | cons l labels =>
    change readMarked mark part (mark :: (labelsText (l :: labels) ++ rest)) = _
    rw [readMarked, if_pos rfl]
    exact readLabels_labelsText (List.cons_ne_nil _ _) plain ends noDot

theorem head?_markedText {mark c : Char} {labels : List Label} {rest : List Char}
    (first : (markedText mark labels ++ rest).head? = some c) : c = mark ∨ rest.head? = some c := by
  cases labels with
  | nil => exact .inr first
  | cons l labels => exact .inl (Option.some.inj first).symm

theorem toList_text (v : Version) : v.text.toList =
    Nat.toDigits 10 v.major.toNat ++ '.' :: (Nat.toDigits 10 v.minor.toNat ++ '.' ::
      (Nat.toDigits 10 v.patch.toNat ++ (markedText '-' v.pre ++ markedText '+' v.build))) := by
  have marked : ∀ (mark : String) (labels : List Label),
      (if labels.isEmpty then "" else mark ++ ".".intercalate (labels.map Label.text)).toList =
        if labels.isEmpty then [] else mark.toList ++ labelsText labels := by
    intro mark labels
    split
    · rfl
    · rw [String.toList_append, String.toList_intercalate, List.map_map]
      rfl
  have numbers : (s!"{v.major.toNat}.{v.minor.toNat}.{v.patch.toNat}").toList =
      Nat.toDigits 10 v.major.toNat ++ '.' :: (Nat.toDigits 10 v.minor.toNat ++ '.' ::
        Nat.toDigits 10 v.patch.toNat) := by
    simp only [String.toList_append, Nat.toString_eq_ofList_toDigits, String.toList_ofList]
    rw [List.append_assoc, List.append_assoc, List.append_assoc]
    rfl
  rw [text, String.toList_append, String.toList_append, preText, buildText, marked, marked, numbers]
  simp only [List.append_assoc, List.cons_append]
  rfl

theorem isBlank_of_mem_labelsText {labels : List Label} {c : Char} (member : c ∈ labelsText labels) :
    isBlank c = false := by
  have visible : ∀ l : Label, ∀ c ∈ l.text.toList, isBlank c = false := by
    intro l c inside
    have isLabel := l.all_isLabelChar c inside
    rw [isLabelChar, Bool.or_eq_true, beq_iff_eq] at isLabel
    rcases isLabel with alphanum | rfl
    · exact isBlank_of_isAlphanum alphanum
    · decide
  induction labels with
  | nil => cases member
  | cons l labels ih =>
    cases labels with
    | nil =>
      rw [labelsText, List.map_singleton, List.intercalate_singleton] at member
      exact visible l c member
    | cons second labels =>
      rw [labelsText, List.map_cons, List.map_cons, List.intercalate_cons_cons, List.mem_append,
        List.mem_append, List.mem_singleton] at member
      rcases member with (inside | rfl) | later
      · exact visible l c inside
      · decide
      · exact ih later

theorem isBlank_of_mem_text {v : Version} {c : Char} (member : c ∈ v.text.toList) : isBlank c = false := by
  have digits : ∀ n, c ∈ Nat.toDigits 10 n → isBlank c = false := fun n inside =>
    isBlank_of_isAlphanum (by rw [Char.isAlphanum, isDigit_of_mem_toDigits inside, Bool.or_true])
  have marked : ∀ (mark : Char) (labels : List Label), isBlank mark = false →
      c ∈ markedText mark labels → isBlank c = false := by
    intro mark labels visible inside
    rw [markedText] at inside
    split at inside
    · cases inside
    · rcases List.mem_cons.mp inside with rfl | inside
      · exact visible
      · exact isBlank_of_mem_labelsText inside
  rw [toList_text] at member
  simp only [List.mem_append, List.mem_cons] at member
  rcases member with major | rfl | minor | rfl | patch | pre | build
  · exact digits _ major
  · decide
  · exact digits _ minor
  · decide
  · exact digits _ patch
  · exact marked '-' _ (by decide) pre
  · exact marked '+' _ (by decide) build

theorem read_text (v : Version) : read v.text.toList = .ok v := by
  have dotted : ∀ rest, Ends Char.isDigit ('.' :: rest) := by
    rintro rest c ⟨⟩
    decide
  have atBuild : ∀ c, (markedText '+' v.build).head? = some c → c = '+' := by
    intro c first
    rw [← List.append_nil (markedText '+' v.build)] at first
    exact (head?_markedText first).resolve_right nofun
  have afterPatch : Ends Char.isDigit (markedText '-' v.pre ++ markedText '+' v.build) := by
    intro c first
    rcases head?_markedText first with rfl | later
    · decide
    · rw [atBuild c later]
      decide
  have pre : readMarked '-' .preRelease (markedText '-' v.pre ++ markedText '+' v.build) =
      .ok (v.pre, markedText '+' v.build) := by
    refine readMarked_markedText (fun _ l member => ?_) (fun c first => ?_) (fun dot => ?_) fun mark => ?_
    · simpa using List.all_eq_true.mp v.pre_plain l member
    · rw [atBuild c first]
      decide
    · cases atBuild _ dot
    · cases atBuild _ mark
  have build : readMarked '+' .build (markedText '+' v.build) = .ok (v.build, []) := by
    rw [← List.append_nil (markedText '+' v.build)]
    refine readMarked_markedText ?_ ?_ ?_ ?_
    · exact fun other => nomatch other
    · exact fun _ first => nomatch first
    · exact fun dot => nomatch dot
    · exact fun mark => nomatch mark
  obtain ⟨d, digits, written, _⟩ := exists_toDigits_cons v.major.toNat
  have some : v.text.toList.isEmpty = false := by
    rw [toList_text, written]
    rfl
  rw [read, some, toList_text, readNumber_toDigits .major v.major (dotted _)]
  simp only [Bool.false_eq_true, if_false, bind, Except.bind, readDot,
    readNumber_toDigits .minor v.minor (dotted _), readNumber_toDigits .patch v.patch afterPatch, pre, build]
  rw [dif_pos v.pre_plain]
  rfl

/-- A version is read back from its text. -/
theorem parse_text_eq (v : Version) : parse v.text = .ok v := by
  obtain ⟨d, digits, written, isDigit⟩ := exists_toDigits_cons v.major.toNat
  have start : v.text.toList.head? = some d := by
    rw [toList_text, written]
    rfl
  rw [parse, trimBlank_of_visible fun _ => isBlank_of_mem_text]
  split
  next rest marked =>
    rw [marked] at start
    cases start
    cases isDigit
  · rw [read_text]
    rfl

end Version

end Deductions
