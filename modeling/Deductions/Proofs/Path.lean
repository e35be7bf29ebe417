import Deductions.Path
import Mathlib.Data.List.Basic

namespace Deductions

namespace Path

theorem ext_of_segments {p q : Path} (same : p.segments = q.segments) : p = q := by
  cases p
  cases q
  cases same
  rfl

theorem startsWith_iff {p base : Path} : p.startsWith base = true ↔ base.segments <+: p.segments :=
  List.isPrefixOf_iff_prefix

theorem startsWith_refl (p : Path) : p.startsWith p = true := startsWith_iff.mpr List.prefix_rfl

/-- Of two beginnings of a path one is a beginning of the other. -/
theorem startsWith_total {p a b : Path} (first : p.startsWith a = true) (second : p.startsWith b = true) :
    a.startsWith b = true ∨ b.startsWith a = true := by
  simp only [startsWith_iff] at first second ⊢
  exact (List.prefix_or_prefix_of_prefix first second).symm

theorem startsWith_of_length_le {p a b : Path} (first : p.startsWith a = true) (second : p.startsWith b = true)
    (shorter : a.length ≤ b.length) : b.startsWith a = true := by
  rw [startsWith_iff] at first second ⊢
  exact List.prefix_of_prefix_length_le first second shorter

theorem child_inj {p q : Path} {a b : String} (same : p.child a = q.child b) : p = q := by
  have segments : p.segments ++ [a] = q.segments ++ [b] := congrArg Path.segments same
  exact ext_of_segments (List.append_inj_left' segments rfl)

theorem ofList?_eq_some_iff {segments : List String} {p : Path} :
    ofList? segments = some p ↔ p.segments = segments := by
  unfold ofList?
  split
  · constructor
    · intro same
      cases same
      rfl
    · rintro rfl
      rfl
  next empty =>
    rw [Decidable.not_not] at empty
    subst empty
    exact iff_of_false (fun same => nomatch same) p.nonempty

@[simp] theorem parent_child (p : Path) (name : String) : (p.child name).parent = some p :=
  ofList?_eq_some_iff.mpr List.dropLast_concat.symm

theorem startsWith_of_take? {p q : Path} {n : Nat} (taken : p.take? n = some q) :
    p.startsWith q = true ∧ q.length = n := by
  unfold take? at taken
  split at taken
  next small =>
    have segments := ofList?_eq_some_iff.mp taken
    refine ⟨startsWith_iff.mpr (segments ▸ List.take_prefix n p.segments), ?_⟩
    rw [length, segments, List.length_take]
    exact Nat.min_eq_left small
  · cases taken

theorem take?_of_startsWith {p q : Path} (begins : p.startsWith q = true) : p.take? q.length = some q := by
  have segments := startsWith_iff.mp begins
  rw [take?, if_pos (show q.length ≤ p.length from segments.length_le), ofList?_eq_some_iff]
  exact List.prefix_iff_eq_take.mp segments

theorem exists_take? {p : Path} {n : Nat} (some : 0 < n) (small : n ≤ p.length) : ∃ q, p.take? n = .some q := by
  have taken : p.segments.take n ≠ [] := fun none =>
    (List.take_eq_nil_iff.mp none).elim (Nat.ne_of_gt some) p.nonempty
  exact ⟨⟨p.segments.take n, taken⟩, (if_pos small).trans (ofList?_eq_some_iff.mpr rfl)⟩

theorem isSome_strip?_iff {p base : Path} :
    (p.strip? base).isSome = true ↔ p.startsWith base = true ∧ base.length < p.length := by
  rw [strip?]
  split
  next begins =>
    rw [ofList?]
    split
    next more =>
      rw [ne_eq, List.drop_eq_nil_iff, Nat.not_le] at more
      exact iff_of_true rfl ⟨begins, more⟩
    next none =>
      rw [ne_eq, not_not, List.drop_eq_nil_iff] at none
      exact iff_of_false (fun isSome => nomatch isSome) fun ⟨_, more⟩ => Nat.not_le.mpr more none
  next other => exact iff_of_false (fun isSome => nomatch isSome) fun ⟨begins, _⟩ => other begins

/-- What is left of a path after another one is what that one is joined with. -/
theorem strip?_eq_some_iff {p base rest : Path} : p.strip? base = some rest ↔ p = base.join rest := by
  have split : p = base.join rest ↔ base.segments ++ rest.segments = p.segments :=
    ⟨fun same => same ▸ rfl, fun same => ext_of_segments same.symm⟩
  rw [strip?, split]
  constructor
  · intro stripped
    split at stripped
    next begins =>
      rw [ofList?_eq_some_iff.mp stripped]
      exact List.prefix_iff_eq_append.mp (startsWith_iff.mp begins)
    · cases stripped
  · intro joined
    rw [if_pos (startsWith_iff.mpr ⟨_, joined⟩), ofList?_eq_some_iff, ← joined]
    exact List.drop_left.symm

/-- A path that is cut between two segments is joined again of its parts. -/
theorem exists_take?_drop? {p : Path} {n : Nat} (some : 0 < n) (more : n < p.length) :
    ∃ front back, p.take? n = .some front ∧ p.drop? n = .some back ∧ front.join back = p := by
  have small := Nat.le_of_lt more
  obtain ⟨front, taken⟩ := exists_take? some small
  have left : p.segments.drop n ≠ [] := fun none => Nat.not_le.mpr more (List.drop_eq_nil_iff.mp none)
  refine ⟨front, ⟨p.segments.drop n, left⟩, taken, ofList?_eq_some_iff.mpr rfl, ext_of_segments ?_⟩
  rw [take?, if_pos small, ofList?_eq_some_iff] at taken
  calc front.segments ++ p.segments.drop n
    _ = p.segments.take n ++ p.segments.drop n := by rw [taken]
    _ = p.segments := List.take_append_drop ..

theorem startsWith_trans {p q r : Path} (first : p.startsWith q = true) (second : q.startsWith r = true) :
    p.startsWith r = true := by
  rw [startsWith_iff] at *
  exact second.trans first

theorem length_le_of_startsWith {p base : Path} (begins : p.startsWith base = true) :
    base.length ≤ p.length := (startsWith_iff.mp begins).length_le

theorem eq_of_startsWith {p base : Path} (begins : p.startsWith base = true)
    (same : base.length = p.length) : base = p :=
  ext_of_segments ((startsWith_iff.mp begins).eq_of_length same)

/-- Two beginnings of a path that are of the same length are the same. -/
theorem eq_of_startsWith_of_length {p a b : Path} (first : p.startsWith a = true)
    (second : p.startsWith b = true) (same : a.length = b.length) : a = b := by
  rcases startsWith_total first second with begins | begins
  · exact (eq_of_startsWith begins same.symm).symm
  · exact eq_of_startsWith begins same

@[simp] theorem length_child (p : Path) (name : String) : (p.child name).length = p.length + 1 :=
  List.length_append

theorem startsWith_child (p : Path) (name : String) : (p.child name).startsWith p = true :=
  startsWith_iff.mpr (List.prefix_append _ _)

/-- What begins a path that is one segment longer is that path or begins the shorter one. -/
theorem startsWith_child_iff {p base : Path} {name : String} :
    (p.child name).startsWith base = true ↔ base = p.child name ∨ p.startsWith base = true := by
  rw [startsWith_iff, startsWith_iff, child, List.prefix_concat_iff]
  exact or_congr_left ⟨fun same => ext_of_segments same, congrArg segments⟩

theorem splitDots_ne_nil (text : List Char) : splitDots text ≠ [] := by
  unfold splitDots
  split
  · exact nofun
  · exact nofun
  · split <;> exact nofun

/-- The pieces on both sides of a dot. -/
theorem splitDots_append_dot (text rest : List Char) :
    splitDots (text ++ '.' :: rest) = splitDots text ++ splitDots rest := by
  induction text with
  | nil => rfl
  | cons c text ih =>
    by_cases dot : c = '.'
    · subst dot
      exact congrArg ([] :: ·) ih
    · rw [List.cons_append, splitDots, splitDots, ih]
      · cases pieces : splitDots text with
        | nil => exact absurd pieces (splitDots_ne_nil text)
        | cons => rfl
      all_goals exact fun same => dot same

theorem splitDots_append {piece : List Char} (undotted : '.' ∉ piece) (rest : List Char) :
    splitDots (piece ++ '.' :: rest) = piece :: splitDots rest := by
  induction piece with
  | nil => rfl
  | cons c piece ih =>
    rw [List.mem_cons, not_or] at undotted
    rw [List.cons_append, splitDots, ih undotted.2]
    exact fun dot => absurd dot.symm undotted.1

theorem splitDots_of_undotted {piece : List Char} (undotted : '.' ∉ piece) : splitDots piece = [piece] := by
  induction piece with
  | nil => rfl
  | cons c piece ih =>
    rw [List.mem_cons, not_or] at undotted
    rw [splitDots, ih undotted.2]
    exact fun dot => absurd dot.symm undotted.1

/-- Pieces without dots are found again between the dots. -/
theorem splitDots_intercalate {pieces : List (List Char)} (some : pieces ≠ [])
    (undotted : ∀ piece ∈ pieces, '.' ∉ piece) : splitDots (['.'].intercalate pieces) = pieces := by
  induction pieces with
  | nil => exact absurd rfl some
  | cons piece others ih =>
    obtain ⟨first, later⟩ := List.forall_mem_cons.mp undotted
    cases others with
    | nil => rw [List.intercalate_singleton, splitDots_of_undotted first]
    | cons second others =>
      rw [List.intercalate_cons_cons, List.append_assoc]
      exact (splitDots_append first _).trans (congrArg _ (ih nofun later))

/-- The pieces between the dots make up the text again. -/
theorem intercalate_splitDots (text : List Char) : ['.'].intercalate (splitDots text) = text := by
  induction text with
  | nil => rfl
  | cons c text ih =>
    cases pieces : splitDots text with
    | nil => exact absurd pieces (splitDots_ne_nil text)
    | cons piece others =>
      rw [pieces] at ih
      by_cases dot : c = '.'
      · rw [dot, splitDots, pieces, List.intercalate_cons_cons, ih]
        rfl
      · rw [splitDots, pieces]
        · rw [← ih]
          cases others <;> rfl
        · exact dot

theorem undotted_of_isIdentifier {s : String} (identifier : isIdentifier s = true) : '.' ∉ s.toList := by
  unfold isIdentifier at identifier
  split at identifier
  · cases identifier
  next c rest text =>
    rw [Bool.and_eq_true, List.all_eq_true] at identifier
    rw [text, List.mem_cons, not_or]
    refine ⟨?_, fun inside => ?_⟩
    · rintro rfl
      exact absurd identifier.1 (by decide)
    · exact absurd (identifier.2 '.' inside) (by decide)

/-- All segments are identifiers. -/
def HasIdentifiers (p : Path) : Prop := ∀ s ∈ p.segments, isIdentifier s = true

instance (p : Path) : Decidable p.HasIdentifiers :=
  inferInstanceAs (Decidable (∀ s ∈ p.segments, isIdentifier s = true))

/-- No path ends with a dot. -/
theorem parse_dot (text : List Char) (p : Path) : parse (String.ofList (text ++ ['.'])) ≠ .ok p := by
  intro read
  have last : "" ∈ (splitDots (text ++ ['.'])).map String.ofList := by
    rw [splitDots_append_dot, List.map_append]
    exact List.mem_append_right _ List.mem_cons_self
  rw [parse] at read
  split at read
  · cases read
  · rw [String.toList_ofList] at read
    dsimp only at read
    split at read
    · cases read
    next none => exact List.find?_eq_none.mp none "" last rfl

/-- A path whose segments are identifiers is read back from its text. -/
theorem parse_text_eq {p : Path} (identifiers : p.HasIdentifiers) : parse p.text = .ok p := by
  have split : (splitDots p.text.toList).map String.ofList = p.segments := by
    rw [text, String.toList_intercalate]
    refine (congrArg (List.map String.ofList) (splitDots_intercalate (by simpa using p.nonempty) ?_)).trans ?_
    · intro piece member
      obtain ⟨s, inside, rfl⟩ := List.mem_map.mp member
      exact undotted_of_isIdentifier (identifiers s inside)
    · rw [List.map_map]
      exact (List.map_congr_left fun s _ => String.ofList_toList).trans (List.map_id _)
  have written : p.text.isEmpty = false := by
    refine Bool.eq_false_iff.mpr fun empty => ?_
    rw [String.isEmpty_iff.mp empty] at split
    have identifier := identifiers "" (split ▸ List.mem_cons_self)
    cases identifier
  have none : p.segments.find? (fun segment => !isIdentifier segment) = none :=
    List.find?_eq_none.mpr fun s inside => by simp [identifiers s inside]
  rw [parse, written]
  simp only [Bool.false_eq_true, if_false, split]
  rw [none]
  simp [p.nonempty]

/-- A text is read as a path just if it is the text of that path and the segments are identifiers. -/
theorem parse_eq_ok_iff {s : String} {p : Path} : parse s = .ok p ↔ p.HasIdentifiers ∧ p.text = s := by
  refine ⟨fun read => ?_, fun ⟨identifiers, written⟩ => written ▸ parse_text_eq identifiers⟩
  rw [parse] at read
  split at read
  · cases read
  dsimp only at read
  split at read
  · cases read
  next identifiers =>
    split at read
    · cases read
      refine ⟨fun segment inside => ?_, ?_⟩
      · simpa using List.find?_eq_none.mp identifiers segment inside
      · have pieces : ((splitDots s.toList).map String.ofList).map String.toList = splitDots s.toList := by
          rw [List.map_map]
          exact (List.map_congr_left fun _ _ => String.toList_ofList).trans (List.map_id _)
        rw [text, ← String.toList_inj, String.toList_intercalate, pieces]
        exact intercalate_splitDots s.toList
    · cases read

/-- Paths of identifiers and the texts that are read as paths belong together one by one, a path goes on after
another one with what that one is joined with, and a path that is cut in two is joined of its parts. -/
theorem text_corresponds :
    (∀ s, (∃ p, parse s = .ok p) ↔ ∃ segments, segments ≠ [] ∧ (∀ segment ∈ segments, isIdentifier segment = true) ∧
      ".".intercalate segments = s) ∧
    (∀ s p, parse s = .ok p → p.text = s) ∧
    (∀ p : Path, p.HasIdentifiers → parse p.text = .ok p) ∧
    (∀ p base rest : Path, p.strip? base = some rest ↔ p = base.join rest) ∧
    ∀ (p : Path) (n : Nat), 0 < n → n < p.length →
      ∃ front back, p.take? n = some front ∧ p.drop? n = some back ∧ front.join back = p := by
  refine ⟨fun s => ?_, fun s p read => (parse_eq_ok_iff.mp read).2, fun p => parse_text_eq,
    fun p base rest => strip?_eq_some_iff, fun p n => exists_take?_drop?⟩
  constructor
  · rintro ⟨p, read⟩
    obtain ⟨identifiers, written⟩ := parse_eq_ok_iff.mp read
    exact ⟨p.segments, p.nonempty, identifiers, written⟩
  · rintro ⟨segments, nonempty, identifiers, written⟩
    exact ⟨⟨segments, nonempty⟩, parse_eq_ok_iff.mpr ⟨identifiers, written⟩⟩

/-- The path `alg.groups.T_1`, read from its text and cut after its first segment. -/
theorem text_corresponds_nested :
    let p := ((single "alg").child "groups").child "T_1"
    p.HasIdentifiers ∧ parse "alg.groups.T_1" = .ok p ∧ p.length = 3 ∧
      ∃ front back, p.take? 1 = some front ∧ p.drop? 1 = some back ∧ front.join back = p := by
  intro p
  obtain ⟨_, _, reads, _, cut⟩ := text_corresponds
  have identifiers : p.HasIdentifiers := by decide
  exact ⟨identifiers, reads p identifiers, rfl, cut p 1 (by decide) (by decide)⟩

end Path

end Deductions
