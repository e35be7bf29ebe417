import Deductions.Proofs.Source.Grammar

namespace Deductions

theorem bind_eq_ok {ε α β : Type} {x : Except ε α} {f : α → Except ε β} {result : β} :
    x >>= f = .ok result ↔ ∃ a, x = .ok a ∧ f a = .ok result := by
  cases x with
  | error e => simp [bind, Except.bind]
  | ok a => simp [bind, Except.bind]

/-- Whether the tokens ahead can all have been read from a text. -/
def Ahead.IsLexical (a : Ahead) : Prop := ∀ l ∈ a.lexemes, l.token.IsLexical

theorem Ahead.IsLexical.skip {a : Ahead} (lexical : a.IsLexical) : a.skip.IsLexical :=
  fun l member => lexical l (List.mem_of_mem_tail member)

theorem Ahead.IsLexical.token {a : Ahead} (lexical : a.IsLexical) {token : Token}
    (next : a.token? = some token) : token.IsLexical := by
  obtain ⟨l, head, rfl⟩ := Option.map_eq_some_iff.mp next
  exact lexical l (List.mem_of_head? head)

section

variable {a b : Ahead}

theorem readToken_eq_ok_iff {token : Token} {what : Expectation} {stop : Nat} :
    readToken token what a = .ok (stop, b) ↔ a.token? = some token ∧ stop = a.hereStop ∧ b = a.skip := by
  unfold readToken
  constructor
  · intro read
    split at read
    next next =>
      cases read
      exact ⟨next, rfl, rfl⟩
    · cases read
  · rintro ⟨next, rfl, rfl⟩
    rw [if_pos next]

theorem readIdentifier_eq_ok_iff {what : Expectation} {name : String} :
    readIdentifier what a = .ok (name, b) ↔ a.token? = some (.identifier name) ∧ b = a.skip := by
  unfold readIdentifier
  constructor
  · intro read
    split at read
    next next =>
      cases read
      exact ⟨next, rfl⟩
    · cases read
  · rintro ⟨next, rfl⟩
    rw [next]

/-- An import is of one of two forms, by its first word. -/
theorem readImport_cases {i : Import} (read : readImport a = .ok (i, b)) :
    (a.token? = some .importWord ∧ ∃ module newName c, readModuleName false a.skip = .ok (module, c) ∧
      readAlias c = .ok (newName, b) ∧ i = ⟨module, .whole newName, a.index.span a.here (lastStop a b)⟩) ∨
    (a.token? ≠ some .importWord ∧ ∃ module stop form c d, readModuleName true a.skip = .ok (module, c) ∧
      readToken .importWord .importWord c = .ok (stop, d) ∧ readImportForm d = .ok (form, b) ∧
      i = ⟨module, form, a.index.span a.here (lastStop a b)⟩) := by
  unfold readImport at read
  split at read
  next next =>
    obtain ⟨⟨module, c⟩, readModule, rest⟩ := bind_eq_ok.mp read
    obtain ⟨⟨newName, d⟩, readNew, done⟩ := bind_eq_ok.mp rest
    cases done
    exact .inl ⟨next, module, newName, c, readModule, readNew, rfl⟩
  next other =>
    obtain ⟨⟨module, c⟩, readModule, rest⟩ := bind_eq_ok.mp read
    obtain ⟨⟨stop, d⟩, readWord, rest⟩ := bind_eq_ok.mp rest
    obtain ⟨⟨form, e⟩, readForm, done⟩ := bind_eq_ok.mp rest
    cases done
    exact .inr ⟨other, module, stop, form, c, d, readModule, readWord, readForm, rfl⟩

/-- The reader `loop` reads elements by `one`, each behind a mark. The fuel bounds their number. -/
structure ReadsEach {α : Type} (mark : Token) (one : Ahead → Except SyntaxError (α × Ahead))
    (loop : Nat → Ahead → Except SyntaxError (List α × Ahead)) : Prop where
  stop : ∀ a, loop 0 a = .ok ([], a)
  step : ∀ fuel a, loop (fuel + 1) a = if a.token? = some mark then do
      let (first, b) ← one a.skip
      let (others, c) ← loop fuel b
      return (first :: others, c)
    else .ok ([], a)

theorem readsEach_segments : ReadsEach .dot (readIdentifier .identifierAfterDot) readSegments :=
  ⟨fun _ => rfl, fun _ _ => rfl⟩

theorem readsEach_paths : ReadsEach .comma readPath readMorePaths := ⟨fun _ => rfl, fun _ _ => rfl⟩

theorem readsEach_names : ReadsEach .comma readImportedName readMoreNames := ⟨fun _ => rfl, fun _ _ => rfl⟩

namespace ReadsEach

variable {α : Type} {mark : Token} {one : Ahead → Except SyntaxError (α × Ahead)}
  {loop : Nat → Ahead → Except SyntaxError (List α × Ahead)} (reads : ReadsEach mark one loop)
include reads

theorem empty (other : a.token? ≠ some mark) (fuel : Nat) : loop fuel a = .ok ([], a) := by
  cases fuel with
  | zero => exact reads.stop a
  | succ fuel => rw [reads.step, if_neg other]

/-- Nothing is read, or an element behind its mark and then the others. -/
theorem cases {fuel : Nat} {elements : List α} (read : loop fuel a = .ok (elements, b)) :
    ((fuel = 0 ∨ a.token? ≠ some mark) ∧ elements = [] ∧ b = a) ∨
    ∃ less first others c, fuel = less + 1 ∧ a.token? = some mark ∧ one a.skip = .ok (first, c) ∧
      loop less c = .ok (others, b) ∧ elements = first :: others := by
  cases fuel with
  | zero =>
    rw [reads.stop] at read
    cases read
    exact .inl ⟨.inl rfl, rfl, rfl⟩
  | succ fuel =>
    rw [reads.step] at read
    split at read
    next next =>
      obtain ⟨⟨first, c⟩, readFirst, rest⟩ := bind_eq_ok.mp read
      obtain ⟨⟨others, d⟩, readRest, done⟩ := bind_eq_ok.mp rest
      cases done
      exact .inr ⟨fuel, first, others, c, rfl, next, readFirst, readRest, rfl⟩
    next other =>
      cases read
      exact .inl ⟨.inr other, rfl, rfl⟩

end ReadsEach

end

/-- What each element that is read satisfies, all of them satisfy. -/
theorem ReadsEach.sound {α : Type} {mark : Token} {one : Ahead → Except SyntaxError (α × Ahead)}
    {loop : Nat → Ahead → Except SyntaxError (List α × Ahead)} (reads : ReadsEach mark one loop) {good : α → Prop}
    (each : ∀ {a b : Ahead} {x : α}, a.IsLexical → one a = .ok (x, b) → good x ∧ b.IsLexical)
    {fuel : Nat} {a b : Ahead} {elements : List α} (lexical : a.IsLexical)
    (read : loop fuel a = .ok (elements, b)) : (∀ x ∈ elements, good x) ∧ b.IsLexical := by
  induction fuel generalizing a elements with
  | zero =>
    rcases reads.cases read with ⟨_, rfl, rfl⟩ | ⟨_, _, _, _, none, _⟩
    · exact ⟨fun _ member => absurd member List.not_mem_nil, lexical⟩
    · cases none
  | succ fuel ih =>
    rcases reads.cases read with ⟨_, rfl, rfl⟩ | ⟨_, first, others, c, ⟨⟩, _, readFirst, readRest, rfl⟩
    · exact ⟨fun _ member => absurd member List.not_mem_nil, lexical⟩
    · obtain ⟨isGood, lexical⟩ := each lexical.skip readFirst
      obtain ⟨areGood, lexical⟩ := ih lexical readRest
      exact ⟨List.forall_mem_cons.mpr ⟨isGood, areGood⟩, lexical⟩

theorem readToken_sound {token : Token} {what : Expectation} {a b : Ahead} {stop : Nat}
    (lexical : a.IsLexical) (read : readToken token what a = .ok (stop, b)) : b.IsLexical := by
  obtain ⟨_, _, rfl⟩ := readToken_eq_ok_iff.mp read
  exact lexical.skip

theorem readIdentifier_sound {what : Expectation} {a b : Ahead} {name : String}
    (lexical : a.IsLexical) (read : readIdentifier what a = .ok (name, b)) :
    IsName name ∧ b.IsLexical := by
  obtain ⟨next, rfl⟩ := readIdentifier_eq_ok_iff.mp read
  exact ⟨lexical.token next, lexical.skip⟩

theorem readAlias_sound {a b : Ahead} {newName : Option String} (lexical : a.IsLexical)
    (read : readAlias a = .ok (newName, b)) : (∀ name ∈ newName, IsName name) ∧ b.IsLexical := by
  unfold readAlias at read
  split at read
  · obtain ⟨⟨name, c⟩, readName, done⟩ := bind_eq_ok.mp read
    cases done
    obtain ⟨isName, lexical⟩ := readIdentifier_sound lexical.skip readName
    exact ⟨by simpa using isName, lexical⟩
  · cases read
    exact ⟨by simp, lexical⟩

theorem readDotted_sound {a b : Ahead} {segments : List String} (lexical : a.IsLexical)
    (read : readDotted a = .ok (segments, b)) :
    segments ≠ [] ∧ (∀ s ∈ segments, IsName s) ∧ b.IsLexical := by
  obtain ⟨⟨first, c⟩, readFirst, rest⟩ := bind_eq_ok.mp read
  obtain ⟨⟨others, d⟩, readRest, done⟩ := bind_eq_ok.mp rest
  cases done
  obtain ⟨isName, lexical⟩ := readIdentifier_sound lexical readFirst
  obtain ⟨areNames, lexical⟩ := readsEach_segments.sound readIdentifier_sound lexical readRest
  exact ⟨by simp, List.forall_mem_cons.mpr ⟨isName, areNames⟩, lexical⟩

theorem readPath_sound {a b : Ahead} {path : Path} (lexical : a.IsLexical)
    (read : readPath a = .ok (path, b)) : path.IsWellFormed ∧ b.IsLexical := by
  obtain ⟨⟨first, c⟩, readFirst, rest⟩ := bind_eq_ok.mp read
  obtain ⟨⟨others, d⟩, readRest, done⟩ := bind_eq_ok.mp rest
  cases done
  obtain ⟨isName, lexical⟩ := readIdentifier_sound lexical readFirst
  obtain ⟨areNames, lexical⟩ := readsEach_segments.sound readIdentifier_sound lexical readRest
  exact ⟨List.forall_mem_cons.mpr ⟨isName, areNames⟩, lexical⟩

theorem readPaths_sound {a b : Ahead} {paths : List Path} (lexical : a.IsLexical)
    (read : readPaths a = .ok (paths, b)) : (∀ p ∈ paths, p.IsWellFormed) ∧ b.IsLexical := by
  obtain ⟨⟨path, c⟩, readFirst, rest⟩ := bind_eq_ok.mp read
  obtain ⟨⟨others, d⟩, readRest, done⟩ := bind_eq_ok.mp rest
  cases done
  obtain ⟨first, lexical⟩ := readPath_sound lexical readFirst
  obtain ⟨others, lexical⟩ := readsEach_paths.sound readPath_sound lexical readRest
  exact ⟨List.forall_mem_cons.mpr ⟨first, others⟩, lexical⟩

theorem countDots_lexical {a : Ahead} (lexical : a.IsLexical) :
    Ahead.IsLexical { a with lexemes := (countDots a.lexemes).2 } :=
  fun l member => lexical l ((List.dropWhile_suffix _).subset member)

theorem readModuleName_sound {bare : Bool} {a b : Ahead} {module : ModuleName}
    (lexical : a.IsLexical) (read : readModuleName bare a = .ok (module, b)) :
    module.IsWellFormed ∧ (module.segments ≠ [] ∨ bare = true ∧ module.dots ≠ 0) ∧
      b.IsLexical := by
  have lexicalRest := countDots_lexical lexical
  unfold readModuleName at read
  dsimp only at read
  split at read
  · obtain ⟨⟨segments, c⟩, readDotted, done⟩ := bind_eq_ok.mp read
    cases done
    obtain ⟨nonempty, areNames, lexical⟩ := readDotted_sound lexicalRest readDotted
    exact ⟨areNames, Or.inl nonempty, lexical⟩
  · split at read
    · cases read
    next some =>
      cases read
      simp only [Bool.or_eq_true, decide_eq_true_eq, Bool.not_eq_true', not_or] at some
      exact ⟨by simp [ModuleName.IsWellFormed], Or.inr (by simpa using And.symm some), lexicalRest⟩

theorem readImportedName_sound {a b : Ahead} {name : ImportedName} (lexical : a.IsLexical)
    (read : readImportedName a = .ok (name, b)) : name.IsWellFormed ∧ b.IsLexical := by
  obtain ⟨⟨first, c⟩, readFirst, rest⟩ := bind_eq_ok.mp read
  obtain ⟨⟨newName, d⟩, readRest, done⟩ := bind_eq_ok.mp rest
  cases done
  obtain ⟨isName, lexical⟩ := readIdentifier_sound lexical readFirst
  obtain ⟨isNewName, lexical⟩ := readAlias_sound lexical readRest
  exact ⟨⟨isName, isNewName⟩, lexical⟩

theorem readImportForm_sound {module : ModuleName} (some : module.segments ≠ [] ∨ module.dots ≠ 0)
    {a b : Ahead} {form : ImportForm} (lexical : a.IsLexical)
    (read : readImportForm a = .ok (form, b)) : form.IsWellFormed module ∧ b.IsLexical := by
  unfold readImportForm at read
  split at read
  · cases read
    exact ⟨some, lexical.skip⟩
  · obtain ⟨⟨name, c⟩, readFirst, rest⟩ := bind_eq_ok.mp read
    obtain ⟨⟨others, d⟩, readRest, done⟩ := bind_eq_ok.mp rest
    cases done
    obtain ⟨first, lexical⟩ := readImportedName_sound lexical readFirst
    obtain ⟨others, lexical⟩ := readsEach_names.sound readImportedName_sound lexical readRest
    exact ⟨⟨some, by simp, List.forall_mem_cons.mpr ⟨first, others⟩⟩, lexical⟩

theorem readImport_sound {a b : Ahead} {i : Import} (lexical : a.IsLexical)
    (read : readImport a = .ok (i, b)) : i.IsWellFormed ∧ b.IsLexical := by
  rcases readImport_cases read with ⟨_, module, newName, c, readModule, readNew, rfl⟩ |
    ⟨_, module, _, form, c, d, readModule, readWord, readForm, rfl⟩
  · obtain ⟨module, nonempty, lexical⟩ := readModuleName_sound lexical.skip readModule
    obtain ⟨isName, lexical⟩ := readAlias_sound lexical readNew
    exact ⟨⟨module, by simpa using nonempty, isName⟩, lexical⟩
  · obtain ⟨module, nonempty, lexical⟩ := readModuleName_sound lexical.skip readModule
    have lexical := readToken_sound lexical readWord
    obtain ⟨form, lexical⟩ :=
      readImportForm_sound (nonempty.imp_right And.right) lexical readForm
    exact ⟨⟨module, form⟩, lexical⟩

theorem readFieldValue_sound {name : String} {a b : Ahead} {value : FieldValue}
    (lexical : a.IsLexical) (read : readFieldValue name a = .ok (value, b)) :
    value.IsWellFormed ∧ b.IsLexical := by
  unfold readFieldValue at read
  split at read
  · split at read
    · cases read
      exact ⟨trivial, lexical.skip⟩
    · cases read
  next body next =>
    cases read
    have raw : IsRaw body := lexical.token next
    exact ⟨by simpa [FieldValue.IsWellFormed] using raw, lexical.skip⟩
  · cases read

theorem readField_sound {a b : Ahead} {field : Field} (lexical : a.IsLexical)
    (read : readField a = .ok (field, b)) : field.IsWellFormed ∧ b.IsLexical := by
  obtain ⟨⟨name, c⟩, readName, rest⟩ := bind_eq_ok.mp read
  obtain ⟨⟨_, d⟩, readEquals, rest⟩ := bind_eq_ok.mp rest
  obtain ⟨⟨value, e⟩, readValue, done⟩ := bind_eq_ok.mp rest
  cases done
  obtain ⟨isName, lexical⟩ := readIdentifier_sound lexical readName
  have lexical := readToken_sound lexical readEquals
  obtain ⟨value, lexical⟩ := readFieldValue_sound lexical readValue
  exact ⟨⟨isName, value⟩, lexical⟩

theorem readClause_sound {token : Token} {word : String} {kind : NodeKind}
    (opens : clauseOf token = some (word, kind)) {clauses result : Clauses} {a b : Ahead}
    (before : clauses.IsWellFormed kind) (lexical : a.IsLexical)
    (read : readClause word clauses a = .ok (result, b)) :
    result.IsWellFormed kind ∧ b.IsLexical := by
  obtain ⟨of, on, versus, contra, wolog, paths⟩ := before
  cases token <;> cases opens
  case wologWord =>
    cases read
    exact ⟨⟨of, on, versus, contra, fun _ => rfl, paths⟩, lexical⟩
  all_goals
    obtain ⟨⟨names, c⟩, readNames, done⟩ := bind_eq_ok.mp read
    cases done
    obtain ⟨names, lexical⟩ := readPaths_sound lexical readNames
    simp only [List.mem_append] at paths
    refine ⟨?_, lexical⟩
  case ofWord => exact ⟨fun _ => rfl, on, versus, contra, wolog, by grind⟩
  case onWord => exact ⟨of, fun _ => rfl, versus, contra, wolog, by grind⟩
  case versusWord => exact ⟨of, on, fun _ => rfl, contra, wolog, by grind⟩
  case contraWord => exact ⟨of, on, versus, fun _ => rfl, wolog, by grind⟩

theorem readClauses_sound {kind : NodeKind} {fuel : Nat} {seen : List String}
    {clauses result : Clauses} {a b : Ahead} (before : clauses.IsWellFormed kind)
    (lexical : a.IsLexical) (read : readClauses kind fuel seen clauses a = .ok (result, b)) :
    result.IsWellFormed kind ∧ b.IsLexical := by
  induction fuel generalizing seen clauses a with
  | zero =>
    cases read
    exact ⟨before, lexical⟩
  | succ fuel ih =>
    unfold readClauses at read
    split at read
    · cases read
      exact ⟨before, lexical⟩
    next word owner opens =>
      obtain ⟨token, _, opens⟩ := Option.bind_eq_some_iff.mp opens
      split at read
      · cases read
      next owned =>
        obtain rfl := Decidable.not_not.mp owned
        split at read
        · cases read
        · obtain ⟨⟨more, c⟩, readFirst, rest⟩ := bind_eq_ok.mp read
          obtain ⟨more, lexical⟩ := readClause_sound opens before lexical.skip readFirst
          exact ih more lexical rest

theorem Clauses.isWellFormed_empty (kind : NodeKind) : ({} : Clauses).IsWellFormed kind where
  of := by simp
  on := by simp
  versus := by simp
  contra := by simp
  wolog := by simp
  paths := by simp

theorem readHeader_sound {kind : NodeKind} {a b : Ahead} {header : Header} (lexical : a.IsLexical)
    (read : readHeader kind a = .ok (header, b)) :
    header.kind = kind ∧ header.IsWellFormed ∧ b.IsLexical := by
  obtain ⟨⟨name, c⟩, readName, rest⟩ := bind_eq_ok.mp read
  obtain ⟨⟨clauses, d⟩, readAll, rest⟩ := bind_eq_ok.mp rest
  obtain ⟨⟨_, e⟩, readBrace, done⟩ := bind_eq_ok.mp rest
  cases done
  obtain ⟨isName, lexical⟩ := readIdentifier_sound lexical.skip readName
  obtain ⟨clauses, lexical⟩ := readClauses_sound (Clauses.isWellFormed_empty kind) lexical readAll
  exact ⟨rfl, ⟨isName, clauses⟩, readToken_sound lexical readBrace⟩

theorem HasDistinctNames.nil : HasDistinctNames [] := by simp [HasDistinctNames, fieldNames, blockNames]

/-- What holds of the items that have been read, last first. -/
def ReadSoFar (kind : NodeKind) (before : List Item) : Prop :=
  HasDistinctNames before ∧ ∀ i ∈ before, i.IsWellFormed kind

theorem ReadSoFar.field {kind : NodeKind} {before : List Item} {field : Field}
    (soFar : ReadSoFar kind before) (wellFormed : field.IsWellFormed)
    (fresh : ¬ (fieldNames before).contains field.name = true) :
    ReadSoFar kind (.field field :: before) := by
  obtain ⟨⟨fields, blocks⟩, items⟩ := soFar
  refine ⟨⟨?_, blocks⟩, List.forall_mem_cons.mpr ⟨wellFormed, items⟩⟩
  exact List.nodup_cons.mpr ⟨mt List.contains_iff_mem.mpr fresh, fields⟩

theorem ReadSoFar.block {kind : NodeKind} {before items : List Item} {header : Header} (span : Span)
    (soFar : ReadSoFar kind before) (nests : kind.mayContain header.kind = true)
    (wellFormed : header.IsWellFormed) (distinct : HasDistinctNames items)
    (inner : Item.AreWellFormed header.kind items)
    (fresh : ¬ (blockNames before).contains header.name = true) :
    ReadSoFar kind (.block { header with span := span } items :: before) := by
  obtain ⟨⟨fields, blocks⟩, others⟩ := soFar
  refine ⟨⟨fields, ?_⟩, List.forall_mem_cons.mpr ⟨⟨nests, wellFormed, distinct, inner⟩, others⟩⟩
  exact List.nodup_cons.mpr ⟨mt List.contains_iff_mem.mpr fresh, blocks⟩

theorem ReadSoFar.reverse {kind : NodeKind} {before : List Item} (soFar : ReadSoFar kind before) :
    HasDistinctNames before.reverse ∧ Item.AreWellFormed kind before.reverse := by
  obtain ⟨⟨fields, blocks⟩, items⟩ := soFar
  refine ⟨⟨?_, ?_⟩, Item.areWellFormed_iff.mpr (by simpa using items)⟩
  · rw [fieldNames, List.filterMap_reverse]
    exact (List.reverse_perm _).nodup_iff.mpr fields
  · rw [blockNames, List.filterMap_reverse]
    exact (List.reverse_perm _).nodup_iff.mpr blocks

/-- What the first item can be, if all items are read: there is none, or it is a field or a block. -/
theorem readItems_cases {kind : NodeKind} {name : String} {fuel : Nat} {before items : List Item} {stop : Nat}
    {a b : Ahead} (read : readItems kind name (fuel + 1) before a = .ok ((items, stop), b)) :
    (a.token? = some .closeBrace ∧ items = before.reverse ∧ stop = a.hereStop ∧ b = a.skip) ∨
    (∃ label field c, a.token? = some (.identifier label) ∧ readField a = .ok (field, c) ∧
      ¬ (fieldNames before).contains field.name = true ∧
      readItems kind name fuel (.field field :: before) c = .ok ((items, stop), b)) ∨
    ∃ inner header inside innerStop c d, a.token? = some (.block inner) ∧ kind.mayContain inner = true ∧
      readHeader inner a = .ok (header, c) ∧
      readItems inner header.name fuel [] c = .ok ((inside, innerStop), d) ∧
      ¬ (blockNames before).contains header.name = true ∧
      readItems kind name fuel (.block { header with span := a.index.span a.here innerStop } inside :: before) d =
        .ok ((items, stop), b) := by
  unfold readItems at read
  split at read
  · cases read
  next next =>
    cases read
    exact .inl ⟨next, rfl, rfl, rfl⟩
  next label next =>
    obtain ⟨⟨field, c⟩, readFirst, rest⟩ := bind_eq_ok.mp read
    dsimp only at rest
    split at rest
    · cases rest
    next fresh => exact .inr (.inl ⟨label, field, c, next, readFirst, fresh, rest⟩)
  next inner next =>
    split at read
    · cases read
    next nests =>
      obtain ⟨⟨header, c⟩, readFirst, inside⟩ := bind_eq_ok.mp read
      dsimp only at inside
      obtain ⟨⟨⟨others, innerStop⟩, d⟩, readInner, rest⟩ := bind_eq_ok.mp inside
      dsimp only at rest
      split at rest
      · cases rest
      next fresh =>
        exact .inr (.inr ⟨inner, header, others, innerStop, c, d, next, by simpa using nests, readFirst, readInner,
          fresh, rest⟩)
  · cases read

theorem readItems_sound {kind : NodeKind} {name : String} {fuel : Nat} {before items : List Item}
    {stop : Nat} {a b : Ahead} (soFar : ReadSoFar kind before) (lexical : a.IsLexical)
    (read : readItems kind name fuel before a = .ok ((items, stop), b)) :
    HasDistinctNames items ∧ Item.AreWellFormed kind items ∧ b.IsLexical := by
  induction fuel generalizing kind name before items stop a b with
  | zero => cases read
  | succ fuel ih =>
    rcases readItems_cases read with ⟨_, rfl, rfl, rfl⟩ | ⟨_, field, c, _, readFirst, fresh, rest⟩ |
      ⟨inner, header, others, _, c, d, _, nests, readFirst, readInner, fresh, rest⟩
    · exact ⟨soFar.reverse.1, soFar.reverse.2, lexical.skip⟩
    · obtain ⟨field, lexical⟩ := readField_sound lexical readFirst
      exact ih (soFar.field field fresh) lexical rest
    · obtain ⟨rfl, header, lexical⟩ := readHeader_sound lexical readFirst
      obtain ⟨distinct, others, lexical⟩ := ih ⟨.nil, by simp⟩ lexical readInner
      exact ih (soFar.block _ nests header distinct others fresh) lexical rest

theorem readBlock_sound {kind : NodeKind} (outermost : kind = .deduction ∨ kind = .note)
    {a b : Ahead} {block : Block} (lexical : a.IsLexical)
    (read : readBlock kind a = .ok (block, b)) : block.IsWellFormed ∧ b.IsLexical := by
  obtain ⟨⟨header, c⟩, readFirst, rest⟩ := bind_eq_ok.mp read
  obtain ⟨⟨⟨items, stop⟩, d⟩, readInner, done⟩ := bind_eq_ok.mp rest
  cases done
  obtain ⟨rfl, header, lexical⟩ := readHeader_sound lexical readFirst
  obtain ⟨distinct, items, lexical⟩ := readItems_sound ⟨.nil, by simp⟩ lexical readInner
  exact ⟨⟨outermost, header, distinct, items⟩, lexical⟩

theorem bindNames_sound {bound names result : List String}
    (bind : bindNames bound names = .ok result) (distinct : bound.Nodup) :
    result = names.reverse ++ bound ∧ result.Nodup := by
  induction names generalizing bound with
  | nil =>
    cases bind
    exact ⟨rfl, distinct⟩
  | cons name names ih =>
    unfold bindNames at bind
    split at bind
    · cases bind
    next fresh =>
      obtain ⟨rfl, distinct⟩ := ih bind (List.nodup_cons.mpr ⟨by simpa using fresh, distinct⟩)
      exact ⟨by simp, distinct⟩

theorem Source.boundNames_imports (i : Import) (rest : Source) :
    ({ rest with imports := i :: rest.imports } : Source).boundNames =
      i.localNames ++ rest.boundNames := by
  simp [Source.boundNames]

theorem Source.boundNames_blocks (block : Block) (rest : Source) :
    ({ rest with blocks := block :: rest.blocks } : Source).boundNames.Perm
      (block.header.name :: rest.boundNames) := by
  simp only [Source.boundNames, List.map_cons]
  exact List.perm_middle

/-- What the first declaration can be, if all declarations are read. -/
theorem readDeclarations_cases {fuel : Nat} {bound : List String} {a : Ahead} {s : Source}
    (read : readDeclarations (fuel + 1) bound a = .ok s) :
    (a.token? = none ∧ s = {}) ∨
    (∃ i b bound' rest, (a.token? = some .importWord ∨ a.token? = some .fromWord) ∧
      readImport a = .ok (i, b) ∧ bindNames bound i.localNames = .ok bound' ∧
      readDeclarations fuel bound' b = .ok rest ∧ s = { rest with imports := i :: rest.imports }) ∨
    ∃ kind block b bound' rest, a.token? = some (.block kind) ∧ (kind = .deduction ∨ kind = .note) ∧
      readBlock kind a = .ok (block, b) ∧ bindNames bound [block.header.name] = .ok bound' ∧
      readDeclarations fuel bound' b = .ok rest ∧ s = { rest with blocks := block :: rest.blocks } := by
  unfold readDeclarations at read
  split at read
  next none =>
    cases read
    exact .inl ⟨none, rfl⟩
  all_goals try cases read
  case h_4 kind next =>
    split at read
    next outermost =>
      rw [Bool.or_eq_true, decide_eq_true_eq, decide_eq_true_eq] at outermost
      obtain ⟨⟨block, b⟩, readFirst, rest⟩ := bind_eq_ok.mp read
      dsimp only at rest
      split at rest
      · cases rest
      next bound' bind =>
        obtain ⟨others, readRest, done⟩ := bind_eq_ok.mp rest
        cases done
        exact .inr (.inr ⟨kind, block, b, bound', others, next, outermost, readFirst, bind, readRest, rfl⟩)
    · cases read
  all_goals
    next next =>
      obtain ⟨⟨i, b⟩, readFirst, rest⟩ := bind_eq_ok.mp read
      dsimp only at rest
      split at rest
      · cases rest
      next bound' bind =>
        obtain ⟨others, readRest, done⟩ := bind_eq_ok.mp rest
        cases done
        exact .inr (.inl ⟨i, b, bound', others, by simp [next], readFirst, bind, readRest, rfl⟩)

/-- The names bound before and those bound by what is read are distinct together. -/
theorem readDeclarations_sound {fuel : Nat} {bound : List String} {a : Ahead} {s : Source}
    (distinct : bound.Nodup) (lexical : a.IsLexical)
    (read : readDeclarations fuel bound a = .ok s) :
    (∀ i ∈ s.imports, i.IsWellFormed) ∧ (∀ b ∈ s.blocks, b.IsWellFormed) ∧
      (bound ++ s.boundNames).Nodup := by
  have empty : (bound ++ (⟨[], []⟩ : Source).boundNames).Nodup := by
    simpa [Source.boundNames] using distinct
  induction fuel generalizing bound a s with
  | zero =>
    cases read
    exact ⟨by simp, by simp, empty⟩
  | succ fuel ih =>
    rcases readDeclarations_cases read with ⟨_, rfl⟩ |
      ⟨i, b, bound', rest, _, readFirst, bind, readRest, rfl⟩ |
      ⟨kind, block, b, bound', rest, _, outermost, readFirst, bind, readRest, rfl⟩
    · exact ⟨by simp, by simp, empty⟩
    · obtain ⟨first, lexical⟩ := readImport_sound lexical readFirst
      obtain ⟨rfl, distinct⟩ := bindNames_sound bind distinct
      obtain ⟨imports, blocks, together⟩ := ih distinct lexical readRest
        (by simpa [Source.boundNames] using distinct)
      refine ⟨List.forall_mem_cons.mpr ⟨first, imports⟩, blocks, ?_⟩
      rw [Source.boundNames_imports]
      refine (List.Perm.nodup_iff ?_).mp together
      rw [← List.append_assoc]
      exact (((List.reverse_perm _).append_right bound).trans List.perm_append_comm).append_right _
    · obtain ⟨first, lexical⟩ := readBlock_sound outermost lexical readFirst
      obtain ⟨rfl, distinct⟩ := bindNames_sound bind distinct
      obtain ⟨imports, blocks, together⟩ := ih distinct lexical readRest
        (by simpa [Source.boundNames] using distinct)
      refine ⟨imports, List.forall_mem_cons.mpr ⟨first, blocks⟩, ?_⟩
      refine (List.Perm.nodup_iff ?_).mp together
      refine List.Perm.trans ?_ ((Source.boundNames_blocks block rest).symm.append_left bound)
      exact List.perm_middle.symm

theorem Source.isWellFormed_of_parse {text : String} {s : Source}
    (read : Source.parse text = .ok s) : s.IsWellFormed := by
  unfold Source.parse at read
  dsimp only at read
  split at read
  · cases read
  · have lexical : Ahead.IsLexical ⟨(Lexemes.ofText text).lexemes, (Lexemes.ofText text).stop, .ofText text⟩ :=
      Lexemes.isLexical_of_read 0 text.toList
    obtain ⟨imports, blocks, distinct⟩ := readDeclarations_sound List.nodup_nil lexical read
    exact ⟨imports, blocks, by simpa using distinct⟩

end Deductions
