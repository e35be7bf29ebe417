import Deductions.Proofs.Source.Placeless

namespace Deductions

/-- Reading went from `a` to `b`. Wherever the tokens between them are ahead, and behind these the next token of `b` or
nothing, reading goes to what follows them, as `again` tells. -/
def Ahead.Takes (a b : Ahead) (again : Ahead → Ahead → Prop) : Prop :=
  ∃ taken, a.tokens = taken ++ b.tokens ∧ ∀ (a' : Ahead) (more : List Token), a'.tokens = taken ++ more →
    (∀ token ∈ more.head?, b.token? = some token) → ∃ b', again a' b' ∧ b'.tokens = more

namespace Ahead.Takes

variable {a b c : Ahead} {again again' : Ahead → Ahead → Prop}

theorem mono (takes : a.Takes b again) (also : ∀ a' b', again a' b' → again' a' b') : a.Takes b again' := by
  obtain ⟨taken, split, anew⟩ := takes
  refine ⟨taken, split, fun a' more ahead next => ?_⟩
  obtain ⟨b', done, behind⟩ := anew a' more ahead next
  exact ⟨b', also a' b' done, behind⟩

theorem trans (first : a.Takes b again) (later : b.Takes c again') :
    a.Takes c fun a' c' => ∃ b', again a' b' ∧ again' b' c' := by
  obtain ⟨taken, split, anew⟩ := first
  obtain ⟨taken', split', anew'⟩ := later
  refine ⟨taken ++ taken', by rw [split, split', List.append_assoc], fun a' more ahead next => ?_⟩
  rw [List.append_assoc] at ahead
  -- the next token for the first reader is one that the second takes, or the next for that as well
  have between : ∀ token ∈ (taken' ++ more).head?, b.token? = some token := by
    intro token head
    rw [b.token?_eq, split']
    cases taken' with
    | nil => rw [List.nil_append, ← c.token?_eq, next token head]
    | cons first taken' => exact head
  obtain ⟨b', done, behind⟩ := anew a' _ ahead between
  obtain ⟨c', done', behind'⟩ := anew' b' more behind next
  exact ⟨c', ⟨b', done, done'⟩, behind'⟩

theorem skip {token : Token} (next : a.token? = some token) :
    a.Takes a.skip fun a' b' => a'.token? = some token ∧ b' = a'.skip := by
  obtain ⟨rest, ahead⟩ := List.head?_eq_some_iff.mp (a.token?_eq.symm.trans next)
  refine ⟨[token], by rw [Ahead.skip_of_cons ahead, ahead]; rfl, fun a' more ahead' _ => ?_⟩
  exact ⟨a'.skip, ⟨Ahead.token?_of_cons ahead', rfl⟩, Ahead.skip_of_cons ahead'⟩

/-- Where nothing is taken, the next token is the same or there is none. -/
theorem stay (a : Ahead) :
    a.Takes a fun a' b' => b' = a' ∧ ∀ token, a'.token? = some token → a.token? = some token :=
  ⟨[], rfl, fun a' _ ahead next =>
    ⟨a', ⟨rfl, fun token head => next token (by rw [a'.token?_eq, ahead] at head; exact head)⟩, ahead⟩⟩

end Ahead.Takes

section

variable {a b : Ahead}

theorem readToken_takes {token : Token} {what : Expectation} {stop : Nat}
    (read : readToken token what a = .ok (stop, b)) :
    a.Takes b fun a' b' => ∃ stop', readToken token what a' = .ok (stop', b') := by
  obtain ⟨next, _, rfl⟩ := readToken_eq_ok_iff.mp read
  exact (Ahead.Takes.skip next).mono fun a' _ again => ⟨_, readToken_eq_ok_iff.mpr ⟨again.1, rfl, again.2⟩⟩

theorem readIdentifier_takes {what : Expectation} {name : String} (read : readIdentifier what a = .ok (name, b)) :
    a.Takes b fun a' b' => readIdentifier what a' = .ok (name, b') := by
  obtain ⟨next, rfl⟩ := readIdentifier_eq_ok_iff.mp read
  exact (Ahead.Takes.skip next).mono fun _ _ => readIdentifier_eq_ok_iff.mpr

theorem readAlias_takes {newName : Option String} (read : readAlias a = .ok (newName, b)) :
    a.Takes b fun a' b' => readAlias a' = .ok (newName, b') := by
  unfold readAlias at read
  split at read
  next next =>
    obtain ⟨⟨name, c⟩, readName, done⟩ := bind_eq_ok.mp read
    cases done
    refine ((Ahead.Takes.skip next).trans (readIdentifier_takes readName)).mono ?_
    rintro a' b' ⟨_, ⟨next', rfl⟩, readName'⟩
    rw [readAlias, if_pos next', readName']
    rfl
  next other =>
    cases read
    refine (Ahead.Takes.stay _).mono ?_
    rintro a' _ ⟨rfl, same⟩
    rw [readAlias, if_neg fun next' => other (same _ next')]

end

/-- A loop takes its elements again whatever its fuel, if that is enough for the tokens ahead. -/
theorem ReadsEach.takes {α : Type} {mark : Token} {one : Ahead → Except SyntaxError (α × Ahead)}
    {loop : Nat → Ahead → Except SyntaxError (List α × Ahead)} (reads : ReadsEach mark one loop)
    (each : ∀ {a b : Ahead} {x : α}, one a = .ok (x, b) → a.Takes b fun a' b' => one a' = .ok (x, b'))
    (shorter : ∀ {a b : Ahead} {x : α}, one a = .ok (x, b) → b.lexemes.length ≤ a.lexemes.length)
    {a b : Ahead} {elements : List α} {fuel : Nat} (enough : a.lexemes.length ≤ fuel)
    (read : loop fuel a = .ok (elements, b)) :
    a.Takes b fun a' b' => ∀ fuel', a'.lexemes.length ≤ fuel' → loop fuel' a' = .ok (elements, b') := by
  induction fuel generalizing a elements with
  | zero =>
    have none : a.token? = none := by
      rw [Ahead.token?, List.eq_nil_of_length_eq_zero (Nat.le_zero.mp enough)]
      rfl
    rw [reads.stop] at read
    cases read
    refine (Ahead.Takes.stay _).mono ?_
    rintro a' _ ⟨rfl, same⟩ fuel' -
    exact reads.empty (fun next => by rw [same _ next] at none; cases none) fuel'
  | succ fuel ih =>
    rcases reads.cases read with ⟨other, rfl, rfl⟩ | ⟨_, first, others, c, ⟨⟩, next, readFirst, readRest, rfl⟩
    · refine (Ahead.Takes.stay _).mono ?_
      rintro a' _ ⟨rfl, same⟩ fuel' -
      have other := other.resolve_left (Nat.succ_ne_zero _)
      exact reads.empty (fun next' => other (same _ next')) fuel'
    · have fewer := Nat.lt_of_le_of_lt (shorter readFirst) (Ahead.length_skip next)
      refine ((Ahead.Takes.skip next).trans ((each readFirst).trans (ih (by omega) readRest))).mono ?_
      rintro a' b' ⟨_, ⟨next', rfl⟩, c', readFirst', readRest'⟩ fuel' enough'
      have fewer' := Nat.lt_of_le_of_lt (shorter readFirst') (Ahead.length_skip next')
      obtain ⟨fuel', rfl⟩ := Nat.exists_eq_add_one_of_ne_zero (show fuel' ≠ 0 by omega)
      rw [reads.step, if_pos next', readFirst', ok_bind]
      dsimp only
      rw [readRest' fuel' (by omega)]
      rfl

section

variable {a b : Ahead}

theorem readSegments_takes {segments : List String} (read : readSegments a.lexemes.length a = .ok (segments, b)) :
    a.Takes b fun a' b' => readSegments a'.lexemes.length a' = .ok (segments, b') := by
  have takes := readsEach_segments.takes readIdentifier_takes (fun read => (readIdentifier_passes read).length_le)
    (Nat.le_refl _) read
  exact takes.mono fun _ _ again => again _ (Nat.le_refl _)

theorem readDotted_takes {segments : List String} (read : readDotted a = .ok (segments, b)) :
    a.Takes b fun a' b' => readDotted a' = .ok (segments, b') := by
  obtain ⟨⟨first, c⟩, readFirst, rest⟩ := bind_eq_ok.mp read
  obtain ⟨⟨others, d⟩, readRest, done⟩ := bind_eq_ok.mp rest
  cases done
  refine ((readIdentifier_takes readFirst).trans (readSegments_takes readRest)).mono ?_
  rintro a' b' ⟨c', readFirst', readRest'⟩
  rw [readDotted, readFirst', ok_bind]
  dsimp only
  rw [readRest']
  rfl

theorem readPath_takes {path : Path} (read : readPath a = .ok (path, b)) :
    a.Takes b fun a' b' => readPath a' = .ok (path, b') := by
  obtain ⟨⟨first, c⟩, readFirst, rest⟩ := bind_eq_ok.mp read
  obtain ⟨⟨others, d⟩, readRest, done⟩ := bind_eq_ok.mp rest
  cases done
  refine ((readIdentifier_takes readFirst).trans (readSegments_takes readRest)).mono ?_
  rintro a' b' ⟨c', readFirst', readRest'⟩
  rw [readPath, readFirst', ok_bind]
  dsimp only
  rw [readRest']
  rfl

theorem readPaths_takes {paths : List Path} (read : readPaths a = .ok (paths, b)) :
    a.Takes b fun a' b' => readPaths a' = .ok (paths, b') := by
  obtain ⟨⟨path, c⟩, readFirst, rest⟩ := bind_eq_ok.mp read
  obtain ⟨⟨others, d⟩, readRest, done⟩ := bind_eq_ok.mp rest
  cases done
  have more := readsEach_paths.takes readPath_takes (fun read => (readPath_passes read).length_le) (Nat.le_refl _)
    readRest
  refine ((readPath_takes readFirst).trans more).mono ?_
  rintro a' b' ⟨c', readFirst', readRest'⟩
  rw [readPaths, readFirst', ok_bind]
  dsimp only
  rw [readRest' _ (Nat.le_refl _)]
  rfl

theorem countDots_takes (a : Ahead) : a.Takes { a with lexemes := (countDots a.lexemes).2 } fun a' b' =>
    (countDots a'.lexemes).1 = (countDots a.lexemes).1 ∧ b' = { a' with lexemes := (countDots a'.lexemes).2 } := by
  have behind : Ahead.tokens { a with lexemes := (countDots a.lexemes).2 } = a.tokens.dropWhile (· == .dot) :=
    (countDots_eq a.lexemes).2
  refine ⟨a.tokens.takeWhile (· == .dot), by rw [behind, List.takeWhile_append_dropWhile], fun a' more ahead next => ?_⟩
  have dots : ∀ token ∈ a.tokens.takeWhile (· == .dot), (token == .dot) = true :=
    fun token member => List.all_eq_true.mp List.all_takeWhile token member
  have stop : ∀ token ∈ more.head?, (token == .dot) = false := by
    intro token head
    have stops := List.head?_dropWhile_not (· == .dot) a.tokens
    rwa [← behind, ← Ahead.token?_eq, next token head] at stops
  have none : more.takeWhile (· == .dot) = [] ∧ more.dropWhile (· == .dot) = more := by
    cases more with
    | nil => exact ⟨rfl, rfl⟩
    | cons token more => simp [stop token rfl]
  refine ⟨_, ⟨?_, rfl⟩, ?_⟩
  · rw [(countDots_eq _).1, (countDots_eq _).1, ← Ahead.tokens, ← Ahead.tokens, ahead,
      List.takeWhile_append_of_pos dots, none.1, List.append_nil]
  · rw [Ahead.tokens, (countDots_eq _).2, ← Ahead.tokens, ahead, List.dropWhile_append_of_pos dots, none.2]

theorem readModuleName_takes {bare : Bool} {module : ModuleName} (read : readModuleName bare a = .ok (module, b)) :
    a.Takes b fun a' b' => readModuleName bare a' = .ok (module, b') := by
  have dots := countDots_takes a
  unfold readModuleName at read
  dsimp only at read
  split at read
  next name next =>
    obtain ⟨⟨segments, c⟩, readAll, done⟩ := bind_eq_ok.mp read
    cases done
    refine (dots.trans (readDotted_takes readAll)).mono ?_
    rintro a' b' ⟨c', ⟨same, rfl⟩, readAll'⟩
    obtain ⟨⟨first, d'⟩, readFirst', _⟩ := bind_eq_ok.mp readAll'
    have next' := (readIdentifier_eq_ok_iff.mp readFirst').1
    unfold readModuleName
    dsimp only
    rw [next', same]
    dsimp only
    rw [readAll']
    rfl
  next noName =>
    split at read
    · cases read
    next some =>
      cases read
      refine (dots.trans (Ahead.Takes.stay _)).mono ?_
      rintro a' b' ⟨c', ⟨same, rfl⟩, rfl, only⟩
      unfold readModuleName
      dsimp only
      rw [same]
      split
      next name next' => exact absurd (only _ next') (noName name)
      · rw [if_neg some]

theorem readImportedName_takes {name : ImportedName} (read : readImportedName a = .ok (name, b)) :
    a.Takes b fun a' b' => readImportedName a' = .ok (name, b') := by
  obtain ⟨⟨first, c⟩, readFirst, rest⟩ := bind_eq_ok.mp read
  obtain ⟨⟨newName, d⟩, readRest, done⟩ := bind_eq_ok.mp rest
  cases done
  refine ((readIdentifier_takes readFirst).trans (readAlias_takes readRest)).mono ?_
  rintro a' b' ⟨c', readFirst', readRest'⟩
  rw [readImportedName, readFirst', ok_bind]
  dsimp only
  rw [readRest']
  rfl

theorem readImportForm_takes {form : ImportForm} (read : readImportForm a = .ok (form, b)) :
    a.Takes b fun a' b' => readImportForm a' = .ok (form, b') := by
  unfold readImportForm at read
  split at read
  next next =>
    cases read
    refine (Ahead.Takes.skip next).mono ?_
    rintro a' _ ⟨next', rfl⟩
    rw [readImportForm, if_pos next']
  next other =>
    obtain ⟨⟨name, c⟩, readFirst, rest⟩ := bind_eq_ok.mp read
    obtain ⟨⟨others, d⟩, readRest, done⟩ := bind_eq_ok.mp rest
    cases done
    have more := readsEach_names.takes readImportedName_takes (fun read => (readImportedName_passes read).length_le)
      (Nat.le_refl _) readRest
    refine ((readImportedName_takes readFirst).trans more).mono ?_
    rintro a' b' ⟨c', readFirst', readRest'⟩
    have noStar : a'.token? ≠ some .star := by
      obtain ⟨⟨first, d'⟩, readName', _⟩ := bind_eq_ok.mp readFirst'
      rw [(readIdentifier_eq_ok_iff.mp readName').1]
      simp
    rw [readImportForm, if_neg noStar, readFirst', ok_bind]
    dsimp only
    rw [readRest' _ (Nat.le_refl _)]
    rfl

theorem word_of_readImportForm {form : ImportForm} (read : readImportForm a = .ok (form, b)) :
    form.word = .fromWord := by
  unfold readImportForm at read
  split at read
  · cases read
    rfl
  · obtain ⟨_, _, rest⟩ := bind_eq_ok.mp read
    obtain ⟨_, _, done⟩ := bind_eq_ok.mp rest
    cases done
    rfl

/-- An import is read again as the same one, but for its span. -/
theorem readImport_takes {i : Import} (opens : a.token? = some .importWord ∨ a.token? = some .fromWord)
    (read : readImport a = .ok (i, b)) : a.Takes b fun a' b' =>
      a'.token? = some i.form.word ∧ ∃ span, readImport a' = .ok ({ i with span := span }, b') := by
  rcases readImport_cases read with ⟨next, module, newName, c, readModule, readNew, rfl⟩ |
    ⟨other, module, _, form, c, d, readModule, readWord, readForm, rfl⟩
  · refine ((Ahead.Takes.skip next).trans ((readModuleName_takes readModule).trans (readAlias_takes readNew))).mono ?_
    rintro a' b' ⟨_, ⟨next', rfl⟩, c', readModule', readNew'⟩
    refine ⟨next', a'.index.span a'.here (lastStop a' b'), ?_⟩
    rw [readImport, if_pos next', readModule', ok_bind]
    dsimp only
    rw [readNew']
    rfl
  · have next := opens.resolve_left other
    refine ((Ahead.Takes.skip next).trans ((readModuleName_takes readModule).trans
      ((readToken_takes readWord).trans (readImportForm_takes readForm)))).mono ?_
    rintro a' b' ⟨_, ⟨next', rfl⟩, c', readModule', d', ⟨_, readWord'⟩, readForm'⟩
    refine ⟨?_, a'.index.span a'.here (lastStop a' b'), ?_⟩
    · rw [next', word_of_readImportForm readForm]
    · rw [readImport, if_neg (by rw [next']; simp), readModule', ok_bind]
      dsimp only
      rw [readWord', ok_bind]
      dsimp only
      rw [readForm']
      rfl

theorem readFieldValue_takes {name : String} {value : FieldValue} (read : readFieldValue name a = .ok (value, b)) :
    a.Takes b fun a' b' => readFieldValue name a' = .ok (value, b') := by
  obtain ⟨⟨token, next, isValue⟩, rfl⟩ := readFieldValue_eq_ok_iff.mp read
  exact (Ahead.Takes.skip next).mono fun a' _ again =>
    readFieldValue_eq_ok_iff.mpr ⟨⟨token, again.1, isValue⟩, again.2⟩

theorem readField_takes {field : Field} (read : readField a = .ok (field, b)) :
    a.Takes b fun a' b' => a'.token? = some (.identifier field.name) ∧
      ∃ span, readField a' = .ok ({ field with span := span }, b') := by
  obtain ⟨⟨name, c⟩, readName, rest⟩ := bind_eq_ok.mp read
  obtain ⟨⟨_, d⟩, readEquals, rest⟩ := bind_eq_ok.mp rest
  obtain ⟨⟨value, e⟩, readValue, done⟩ := bind_eq_ok.mp rest
  cases done
  refine ((readIdentifier_takes readName).trans
    ((readToken_takes readEquals).trans (readFieldValue_takes readValue))).mono ?_
  rintro a' b' ⟨c', readName', d', ⟨_, readEquals'⟩, readValue'⟩
  refine ⟨(readIdentifier_eq_ok_iff.mp readName').1, a'.index.span a'.here d'.hereStop, ?_⟩
  rw [readField, readName', ok_bind]
  dsimp only
  rw [readEquals', ok_bind]
  dsimp only
  rw [readValue']
  rfl

theorem readClause_takes {word : String} {clauses result : Clauses}
    (read : readClause word clauses a = .ok (result, b)) :
    a.Takes b fun a' b' => readClause word clauses a' = .ok (result, b') := by
  unfold readClause at read
  split at read
  case h_5 =>
    cases read
    refine (Ahead.Takes.stay _).mono ?_
    rintro a' _ ⟨rfl, -⟩
    unfold readClause
    split <;> first | contradiction | rfl
  all_goals
    obtain ⟨⟨paths, c⟩, readAll, done⟩ := bind_eq_ok.mp read
    cases done
    refine (readPaths_takes readAll).mono ?_
    intro a' b' readAll'
    rw [readClause, readAll']
    rfl

theorem readClauses_none {kind : NodeKind} (none : a.token?.bind clauseOf = none) (fuel : Nat) (seen : List String)
    (clauses : Clauses) : readClauses kind fuel seen clauses a = .ok (clauses, a) := by
  cases fuel with
  | zero => rfl
  | succ fuel => rw [readClauses, none]

/-- No clause is read before what opens none, nor before the end. -/
theorem readClauses_stay {kind : NodeKind} (none : a.token?.bind clauseOf = none) (seen : List String)
    (clauses : Clauses) : a.Takes a fun a' b' => ∀ fuel', a'.lexemes.length ≤ fuel' →
      readClauses kind fuel' seen clauses a' = .ok (clauses, b') := by
  refine (Ahead.Takes.stay a).mono ?_
  rintro a' _ ⟨rfl, same⟩ fuel' -
  refine readClauses_none (Option.bind_eq_none_iff.mpr fun token next => ?_) fuel' seen clauses
  rw [same token next] at none
  exact none

theorem readClauses_takes {kind : NodeKind} {fuel : Nat} {seen : List String} {clauses result : Clauses}
    (enough : a.lexemes.length ≤ fuel) (read : readClauses kind fuel seen clauses a = .ok (result, b)) :
    a.Takes b fun a' b' => ∀ fuel', a'.lexemes.length ≤ fuel' →
      readClauses kind fuel' seen clauses a' = .ok (result, b') := by
  induction fuel generalizing a seen clauses with
  | zero =>
    cases read
    refine readClauses_stay ?_ seen _
    rw [Ahead.token?, List.eq_nil_of_length_eq_zero (Nat.le_zero.mp enough)]
    rfl
  | succ fuel ih =>
    unfold readClauses at read
    split at read
    next none =>
      cases read
      exact readClauses_stay none seen _
    next word owner opens =>
      obtain ⟨token, next, opens⟩ := Option.bind_eq_some_iff.mp opens
      split at read
      · cases read
      next owned =>
        obtain rfl := Decidable.not_not.mp owned
        split at read
        · cases read
        next fresh =>
          obtain ⟨⟨more, c⟩, readFirst, rest⟩ := bind_eq_ok.mp read
          have fewer := Nat.lt_of_le_of_lt (readClause_passes readFirst).length_le (Ahead.length_skip next)
          refine ((Ahead.Takes.skip next).trans ((readClause_takes readFirst).trans (ih (by omega) rest))).mono ?_
          rintro a' b' ⟨_, ⟨next', rfl⟩, c', readFirst', rest'⟩ fuel' enough'
          have fewer' := Nat.lt_of_le_of_lt (readClause_passes readFirst').length_le (Ahead.length_skip next')
          obtain ⟨fuel', rfl⟩ := Nat.exists_eq_add_one_of_ne_zero (show fuel' ≠ 0 by omega)
          obtain ⟨behind, ahead'⟩ := List.head?_eq_some_iff.mp (a'.token?_eq.symm.trans next')
          rw [readClauses_step opens (Bool.eq_false_iff.mpr fresh) ahead' readFirst']
          exact rest' fuel' (by omega)

theorem readHeader_takes {kind : NodeKind} {header : Header} (next : a.token? = some (.block kind))
    (read : readHeader kind a = .ok (header, b)) : a.Takes b fun a' b' =>
      a'.token? = some (.block kind) ∧ ∃ span, readHeader kind a' = .ok ({ header with span := span }, b') := by
  obtain ⟨⟨name, c⟩, readName, rest⟩ := bind_eq_ok.mp read
  obtain ⟨⟨clauses, d⟩, readAll, rest⟩ := bind_eq_ok.mp rest
  obtain ⟨⟨_, e⟩, readBrace, done⟩ := bind_eq_ok.mp rest
  cases done
  refine ((Ahead.Takes.skip next).trans ((readIdentifier_takes readName).trans
    ((readClauses_takes (Nat.le_refl _) readAll).trans (readToken_takes readBrace)))).mono ?_
  rintro a' b' ⟨_, ⟨next', rfl⟩, c', readName', d', readAll', _, readBrace'⟩
  refine ⟨next', a'.index.span a'.here 0, ?_⟩
  rw [readHeader, readName', ok_bind]
  dsimp only
  rw [readAll' _ (Nat.le_refl _), ok_bind]
  dsimp only
  rw [readBrace']
  rfl

theorem readItems_close {kind : NodeKind} {name : String} {fuel : Nat} {before : List Item}
    (next : a.token? = some .closeBrace) :
    readItems kind name (fuel + 1) before a = .ok ((before.reverse, a.hereStop), a.skip) := by
  rw [readItems, next]

theorem readItems_field {kind : NodeKind} {name label : String} {fuel : Nat} {before : List Item} {field : Field}
    (next : a.token? = some (.identifier label)) (read : readField a = .ok (field, b))
    (fresh : ¬ (fieldNames before).contains field.name = true) :
    readItems kind name (fuel + 1) before a = readItems kind name fuel (.field field :: before) b := by
  rw [readItems, next]
  dsimp only
  rw [read, ok_bind]
  exact if_neg fresh

theorem readItems_block {kind inner : NodeKind} {name : String} {fuel : Nat} {before items : List Item}
    {header : Header} {stop : Nat} {c : Ahead} (next : a.token? = some (.block inner))
    (nests : kind.mayContain inner = true) (readFirst : readHeader inner a = .ok (header, b))
    (readInner : readItems inner header.name fuel [] b = .ok ((items, stop), c))
    (fresh : ¬ (blockNames before).contains header.name = true) :
    readItems kind name (fuel + 1) before a =
      readItems kind name fuel (.block { header with span := a.index.span a.here stop } items :: before) c := by
  rw [readItems, next]
  dsimp only
  rw [nests, readFirst, ok_bind]
  dsimp only
  rw [readInner, ok_bind]
  exact if_neg fresh

theorem readItems_length_le {kind : NodeKind} {name : String} {fuel : Nat} {before items : List Item} {stop : Nat}
    (read : readItems kind name fuel before a = .ok ((items, stop), b)) : b.lexemes.length ≤ a.lexemes.length := by
  obtain ⟨_, _, passes⟩ := readItems_passes read
  exact passes.length_le

/-- The items of a block are read again as the same ones but for their spans, behind items that are the same but for
theirs. -/
theorem readItems_takes {kind : NodeKind} {name : String} {fuel : Nat} {before items : List Item} {stop : Nat}
    (enough : a.lexemes.length < fuel) (read : readItems kind name fuel before a = .ok ((items, stop), b)) :
    a.Takes b fun a' b' => ∀ fuel' before', a'.lexemes.length < fuel' →
      Item.eraseSpansList before = Item.eraseSpansList before' →
      ∃ items' stop', readItems kind name fuel' before' a' = .ok ((items', stop'), b') ∧
        Item.eraseSpansList items = Item.eraseSpansList items' := by
  induction fuel generalizing kind name before items stop a b with
  | zero => cases read
  | succ fuel ih =>
    rcases readItems_cases read with ⟨next, rfl, rfl, rfl⟩ | ⟨_, field, c, _, readFirst, fresh, rest⟩ |
      ⟨inner, header, others, _, c, d, next, nests, readFirst, readInner, fresh, rest⟩
    · refine (Ahead.Takes.skip next).mono ?_
      rintro a' _ ⟨next', rfl⟩ fuel' before' enough' same
      obtain ⟨fuel', rfl⟩ := Nat.exists_eq_add_one_of_ne_zero (show fuel' ≠ 0 by omega)
      exact ⟨_, _, readItems_close next', Item.eraseSpansList_reverse same⟩
    · have fewer := (readField_passes readFirst).length_lt
      refine ((readField_takes readFirst).trans (ih (by omega) rest)).mono ?_
      rintro a' b' ⟨c', ⟨next', span, readFirst'⟩, rest'⟩ fuel' before' enough' same
      obtain ⟨fuel', rfl⟩ := Nat.exists_eq_add_one_of_ne_zero (show fuel' ≠ 0 by omega)
      have fewer' := (readField_passes readFirst').length_lt
      rw [readItems_field next' readFirst' (by rwa [← fieldNames_congr same])]
      refine rest' fuel' _ (by omega) ?_
      rw [Item.eraseSpansList, Item.eraseSpansList, same]
      rfl
    · have fewer := Nat.lt_of_le_of_lt (readHeader_passes readFirst).length_le (Ahead.length_skip next)
      have fewerStill := readItems_length_le readInner
      refine ((readHeader_takes next readFirst).trans ((ih (by omega) readInner).trans (ih (by omega) rest))).mono ?_
      rintro a' b' ⟨c', ⟨next', span, readFirst'⟩, d', inner', rest'⟩ fuel' before' enough' same
      obtain ⟨fuel', rfl⟩ := Nat.exists_eq_add_one_of_ne_zero (show fuel' ≠ 0 by omega)
      have fewer' := Nat.lt_of_le_of_lt (readHeader_passes readFirst').length_le (Ahead.length_skip next')
      obtain ⟨others', _, readInner', sameInner⟩ := inner' fuel' [] (by omega) rfl
      have fewerStill' := readItems_length_le readInner'
      rw [readItems_block next' nests readFirst' readInner' (by rwa [← blockNames_congr same])]
      refine rest' fuel' _ (by omega) ?_
      rw [Item.eraseSpansList, Item.eraseSpansList, same, Item.eraseSpans, Item.eraseSpans, sameInner]

theorem readBlock_takes {kind : NodeKind} {block : Block} (next : a.token? = some (.block kind))
    (read : readBlock kind a = .ok (block, b)) : a.Takes b fun a' b' => a'.token? = some (.block kind) ∧
      ∃ block', readBlock kind a' = .ok (block', b') ∧ block.eraseSpans = block'.eraseSpans := by
  obtain ⟨⟨header, c⟩, readFirst, rest⟩ := bind_eq_ok.mp read
  obtain ⟨⟨⟨items, stop⟩, d⟩, readInner, done⟩ := bind_eq_ok.mp rest
  cases done
  refine ((readHeader_takes next readFirst).trans (readItems_takes (Nat.lt_succ_self _) readInner)).mono ?_
  rintro a' b' ⟨c', ⟨next', span, readFirst'⟩, readInner'⟩
  obtain ⟨items', stop', readInner', same⟩ := readInner' _ [] (Nat.lt_succ_self _) rfl
  refine ⟨next', ⟨{ header with span := a'.index.span a'.here stop' }, items'⟩, ?_, congrArg (Block.mk _) same⟩
  rw [readBlock, readFirst', ok_bind]
  dsimp only
  rw [readInner']
  rfl

end

/-- Whatever text spells the tokens is accepted as the source, but for spans. -/
def SpellsAlone (tokens : List Token) (s : Source) : Prop :=
  ∀ text : String, Spells text.toList tokens → ∃ alone, Source.parse text = .ok alone ∧ alone.eraseSpans = s.eraseSpans

theorem readDeclarations_none {a : Ahead} (none : a.tokens = []) (fuel : Nat) (bound : List String) :
    readDeclarations fuel bound a = .ok {} := by
  cases fuel with
  | zero => rfl
  | succ fuel => rw [readDeclarations, a.token?_eq, none, List.head?_nil]

/-- What the first declaration takes is accepted as that declaration alone. -/
theorem Ahead.Takes.spellsAlone {a b : Ahead} {again : Ahead → Ahead → Prop} {taken : List Lexeme} {s : Source}
    (takes : a.Takes b again) (split : a.lexemes = taken ++ b.lexemes)
    (reads : ∀ a' b' fuel, again a' b' → b'.tokens = [] →
      ∃ s', readDeclarations (fuel + 1) [] a' = .ok s' ∧ s'.eraseSpans = s.eraseSpans) :
    SpellsAlone (taken.map Lexeme.token) s := by
  intro text spells
  obtain ⟨noFault, tokens⟩ := spells 0
  obtain ⟨taken', split', anew⟩ := takes
  have same : taken' = taken.map Lexeme.token := by
    rw [Ahead.tokens, Ahead.tokens, split, List.map_append] at split'
    exact (List.append_cancel_right split').symm
  have ahead : Ahead.tokens ⟨(Lexemes.ofText text).lexemes, (Lexemes.ofText text).stop, .ofText text⟩ =
      taken' ++ [] := by
    rw [List.append_nil, same]
    exact tokens
  obtain ⟨b', done, behind⟩ := anew _ [] ahead fun _ head => absurd head (Option.not_mem_none _)
  obtain ⟨s', read, erased⟩ := reads _ b' _ done behind
  refine ⟨s', ?_, erased⟩
  rw [Source.parse, show (Lexemes.ofText text).fault = none from noFault]
  exact read

theorem readImport_alone {a b : Ahead} {i : Import} {taken : List Lexeme}
    (opens : a.token? = some .importWord ∨ a.token? = some .fromWord) (read : readImport a = .ok (i, b))
    (split : a.lexemes = taken ++ b.lexemes) (distinct : i.localNames.Nodup) :
    SpellsAlone (taken.map Lexeme.token) { imports := [i] } := by
  refine (readImport_takes opens read).spellsAlone split ?_
  rintro a' b' fuel ⟨next, span, readFirst⟩ behind
  have bind : bindNames [] ({ i with span := span } : Import).localNames = .ok (i.localNames.reverse ++ []) :=
    bindNames_complete (by rwa [List.append_nil])
  have word : a'.token? = some ({ i with span := span } : Import).form.word := next
  exact ⟨_, readDeclarations_import word readFirst bind (readDeclarations_none behind fuel _), rfl⟩

theorem readBlock_alone {a b : Ahead} {kind : NodeKind} {block : Block} {taken : List Lexeme}
    (next : a.token? = some (.block kind)) (outermost : kind = .deduction ∨ kind = .note)
    (read : readBlock kind a = .ok (block, b)) (split : a.lexemes = taken ++ b.lexemes) :
    SpellsAlone (taken.map Lexeme.token) { blocks := [block] } := by
  refine (readBlock_takes next read).spellsAlone split ?_
  rintro a' b' fuel ⟨next', block', readFirst, same⟩ behind
  refine ⟨_, readDeclarations_block next' outermost readFirst rfl (readDeclarations_none behind fuel _), ?_⟩
  exact Source.eraseSpans_blocks (s := {}) (t := {}) same.symm rfl

end Deductions
