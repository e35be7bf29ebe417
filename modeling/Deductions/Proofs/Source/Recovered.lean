import Deductions.Proofs.Source.Accepted

namespace Deductions

def Ahead.tokens (a : Ahead) : List Token := a.lexemes.map Lexeme.token

theorem Ahead.token?_eq (a : Ahead) : a.token? = a.tokens.head? := by
  rw [Ahead.tokens, List.head?_map]
  rfl

theorem Ahead.tokens_skip (a : Ahead) : a.skip.tokens = a.tokens.tail := by
  rw [Ahead.tokens, Ahead.tokens, ← List.map_tail]
  rfl

theorem Ahead.length_lexemes (a : Ahead) : a.lexemes.length = a.tokens.length :=
  (List.length_map _).symm

theorem ok_bind {ε α β : Type} (a : α) (f : α → Except ε β) : (.ok a >>= f) = f a := rfl

theorem Ahead.token?_of_cons {a : Ahead} {token : Token} {rest : List Token}
    (ahead : a.tokens = token :: rest) : a.token? = some token := by
  rw [a.token?_eq, ahead]
  rfl

theorem Ahead.skip_of_cons {a : Ahead} {token : Token} {rest : List Token}
    (ahead : a.tokens = token :: rest) : a.skip.tokens = rest := by
  rw [a.tokens_skip, ahead]
  rfl

/-- Groups that each open with `mark` do not open with another token. -/
theorem head?_groups {α : Type} {mark token : Token} (other : mark ≠ token) {l : List α}
    {group : α → List Token} {rest : List Token} (stop : rest.head? ≠ some token) :
    (l.flatMap (fun a => mark :: group a) ++ rest).head? ≠ some token := by
  cases l with
  | nil => simpa using stop
  | cons a l => simpa using other

theorem length_le_groups {α : Type} (mark : Token) (l : List α) (group : α → List Token) :
    l.length ≤ (l.flatMap fun a => mark :: group a).length := by
  induction l with
  | nil => simp
  | cons a l ih =>
    simp only [List.length_cons, List.flatMap_cons, List.cons_append, List.length_append]
    omega

theorem separated_cons {α : Type} (mark : Token) (group : α → List Token) (first : α) (rest : List α) :
    separated mark ((first :: rest).map group) =
      group first ++ rest.flatMap fun a => mark :: group a := by
  simp [separated, List.flatMap_map]

theorem readToken_complete {token : Token} (what : Expectation) {a : Ahead} {rest : List Token}
    (ahead : a.tokens = token :: rest) :
    ∃ b, readToken token what a = .ok (a.hereStop, b) ∧ b.tokens = rest :=
  ⟨a.skip, if_pos (Ahead.token?_of_cons ahead), Ahead.skip_of_cons ahead⟩

theorem readIdentifier_complete (what : Expectation) {name : String} {a : Ahead} {rest : List Token}
    (ahead : a.tokens = .identifier name :: rest) :
    ∃ b, readIdentifier what a = .ok (name, b) ∧ b.tokens = rest := by
  refine ⟨a.skip, ?_, Ahead.skip_of_cons ahead⟩
  rw [readIdentifier, Ahead.token?_of_cons ahead]

theorem readAlias_complete {newName : Option String} {a : Ahead} {rest : List Token}
    (stop : rest.head? ≠ some .asWord) (ahead : a.tokens = aliasTokens newName ++ rest) :
    ∃ b, readAlias a = .ok (newName, b) ∧ b.tokens = rest := by
  cases newName with
  | none =>
    have next : a.token? ≠ some .asWord := by
      rw [a.token?_eq, ahead]
      exact stop
    exact ⟨a, if_neg next, ahead⟩
  | some name =>
    obtain ⟨b, read, after⟩ := readIdentifier_complete _ (Ahead.skip_of_cons ahead)
    refine ⟨b, ?_, after⟩
    rw [readAlias, if_pos (Ahead.token?_of_cons ahead), read, ok_bind]
    rfl

namespace ReadsEach

variable {α : Type} {mark : Token} {one : Ahead → Except SyntaxError (α × Ahead)}
  {loop : Nat → Ahead → Except SyntaxError (List α × Ahead)} (reads : ReadsEach mark one loop)
  {group : α → List Token} {rest : List Token} (stop : rest.head? ≠ some mark)
  (each : ∀ {x : α} {others : List α} {a : Ahead},
    a.tokens = group x ++ ((others.flatMap fun x => mark :: group x) ++ rest) →
    ∃ b, one a = .ok (x, b) ∧ b.tokens = (others.flatMap fun x => mark :: group x) ++ rest)
include reads stop each

/-- Elements are read in front of what opens no other, where each is in front of the others. -/
theorem complete {elements : List α} {fuel : Nat} {a : Ahead} (enough : elements.length ≤ fuel)
    (ahead : a.tokens = (elements.flatMap fun x => mark :: group x) ++ rest) :
    ∃ b, loop fuel a = .ok (elements, b) ∧ b.tokens = rest := by
  induction elements generalizing fuel a with
  | nil =>
    have next : a.token? ≠ some mark := by
      rw [a.token?_eq, ahead]
      exact stop
    exact ⟨a, reads.empty next fuel, ahead⟩
  | cons x elements ih =>
    cases fuel with
    | zero => cases enough
    | succ fuel =>
      rw [List.flatMap_cons, List.cons_append, List.cons_append, List.append_assoc] at ahead
      obtain ⟨b, readFirst, afterFirst⟩ := each (Ahead.skip_of_cons ahead)
      obtain ⟨c, readRest, afterRest⟩ := ih (Nat.le_of_succ_le_succ enough) afterFirst
      refine ⟨c, ?_, afterRest⟩
      rw [reads.step, if_pos (Ahead.token?_of_cons ahead), readFirst, ok_bind]
      dsimp only
      rw [readRest, ok_bind]
      rfl

/-- The tokens ahead give fuel enough. -/
theorem complete_ahead {elements : List α} {a : Ahead}
    (ahead : a.tokens = (elements.flatMap fun x => mark :: group x) ++ rest) :
    ∃ b, loop a.lexemes.length a = .ok (elements, b) ∧ b.tokens = rest := by
  refine reads.complete stop each ?_ ahead
  have enough := length_le_groups mark elements group
  rw [a.length_lexemes, ahead, List.length_append]
  omega

end ReadsEach

theorem dottedTokens_cons (first : String) (segments : List String) :
    dottedTokens (first :: segments) =
      .identifier first :: segments.flatMap fun s => [.dot, .identifier s] :=
  separated_cons .dot (fun s => [.identifier s]) first segments

theorem readSegments_complete {segments : List String} {a : Ahead} {rest : List Token}
    (stop : rest.head? ≠ some .dot)
    (ahead : a.tokens = (segments.flatMap fun s => [.dot, .identifier s]) ++ rest) :
    ∃ b, readSegments a.lexemes.length a = .ok (segments, b) ∧ b.tokens = rest :=
  readsEach_segments.complete_ahead stop (readIdentifier_complete _) ahead

theorem readDotted_complete {segments : List String} (nonempty : segments ≠ []) {a : Ahead}
    {rest : List Token} (stop : rest.head? ≠ some .dot)
    (ahead : a.tokens = dottedTokens segments ++ rest) :
    ∃ b, readDotted a = .ok (segments, b) ∧ b.tokens = rest := by
  obtain ⟨first, segments, rfl⟩ := List.exists_cons_of_ne_nil nonempty
  rw [dottedTokens_cons] at ahead
  obtain ⟨b, readFirst, afterFirst⟩ := readIdentifier_complete _ ahead
  obtain ⟨c, readRest, afterRest⟩ := readSegments_complete stop afterFirst
  refine ⟨c, ?_, afterRest⟩
  rw [readDotted, readFirst, ok_bind]
  dsimp only
  rw [readRest, ok_bind]
  rfl

theorem readPath_complete {path : Path} {a : Ahead} {rest : List Token}
    (stop : rest.head? ≠ some .dot) (ahead : a.tokens = path.tokens ++ rest) :
    ∃ b, readPath a = .ok (path, b) ∧ b.tokens = rest := by
  obtain ⟨segments, nonempty⟩ := path
  obtain ⟨first, segments, rfl⟩ := List.exists_cons_of_ne_nil nonempty
  rw [Path.tokens, dottedTokens_cons] at ahead
  obtain ⟨b, readFirst, afterFirst⟩ := readIdentifier_complete _ ahead
  obtain ⟨c, readRest, afterRest⟩ := readSegments_complete stop afterFirst
  refine ⟨c, ?_, afterRest⟩
  rw [readPath, readFirst, ok_bind]
  dsimp only
  rw [readRest, ok_bind]
  rfl

theorem readPaths_complete {paths : List Path} (nonempty : paths ≠ []) {a : Ahead}
    {rest : List Token} (noComma : rest.head? ≠ some .comma) (noDot : rest.head? ≠ some .dot)
    (ahead : a.tokens = pathsTokens paths ++ rest) :
    ∃ b, readPaths a = .ok (paths, b) ∧ b.tokens = rest := by
  obtain ⟨first, paths, rfl⟩ := List.exists_cons_of_ne_nil nonempty
  rw [pathsTokens, separated_cons, List.append_assoc] at ahead
  obtain ⟨b, readFirst, afterFirst⟩ := readPath_complete (head?_groups (by simp) noDot) ahead
  obtain ⟨c, readRest, afterRest⟩ :=
    readsEach_paths.complete_ahead noComma (readPath_complete (head?_groups (by simp) noDot)) afterFirst
  refine ⟨c, ?_, afterRest⟩
  rw [readPaths, readFirst, ok_bind]
  dsimp only
  rw [readRest, ok_bind]
  rfl

theorem countDots_tokens {lexemes : List Lexeme} {dots : Nat} {rest : List Token}
    (stop : rest.head? ≠ some .dot)
    (ahead : lexemes.map Lexeme.token = List.replicate dots .dot ++ rest) :
    (countDots lexemes).1 = dots ∧ (countDots lexemes).2.map Lexeme.token = rest := by
  induction dots generalizing lexemes with
  | zero =>
    cases lexemes with
    | nil => exact ⟨rfl, ahead⟩
    | cons l lexemes =>
      have first : l.token ≠ .dot := by
        rintro same
        rw [List.replicate_zero, List.nil_append, List.map_cons, same] at ahead
        exact stop (by rw [← ahead]; rfl)
      simpa [countDots, first] using ahead
  | succ dots ih =>
    cases lexemes with
    | nil => cases ahead
    | cons l lexemes =>
      rw [List.replicate_succ, List.cons_append, List.map_cons, List.cons.injEq] at ahead
      obtain ⟨count, after⟩ := ih ahead.2
      simp only [countDots] at count after ⊢
      simp [ahead.1, count, after]

theorem readModuleName_complete (bare : Bool) {module : ModuleName}
    (named : module.segments ≠ [] ∨ bare = true ∧ module.dots ≠ 0) {a : Ahead} {rest : List Token}
    (noDot : rest.head? ≠ some .dot) (noName : ∀ name, rest.head? ≠ some (.identifier name))
    (ahead : a.tokens = module.tokens ++ rest) :
    ∃ b, readModuleName bare a = .ok (module, b) ∧ b.tokens = rest := by
  obtain ⟨dots, segments⟩ := module
  rw [ModuleName.tokens, List.append_assoc] at ahead
  have stop : (dottedTokens segments ++ rest).head? ≠ some .dot := by
    cases segments with
    | nil => exact noDot
    | cons first segments => simp [dottedTokens_cons]
  obtain ⟨count, after⟩ := countDots_tokens stop ahead
  have after : Ahead.tokens { a with lexemes := (countDots a.lexemes).2 } = dottedTokens segments ++ rest := after
  cases segments with
  | nil =>
    have nonzero : ¬ ((decide (dots = 0) || !bare) = true) := by
      rcases named with named | ⟨rfl, named⟩
      · exact absurd rfl named
      · simpa using named
    refine ⟨_, ?_, after⟩
    rw [readModuleName]
    dsimp only
    rw [count, Ahead.token?_eq, after]
    split
    next name next => exact absurd next (noName name)
    · rw [if_neg nonzero]
  | cons first segments =>
    obtain ⟨b, read, afterAll⟩ := readDotted_complete (by simp) noDot after
    refine ⟨b, ?_, afterAll⟩
    rw [dottedTokens_cons] at after
    rw [readModuleName]
    dsimp only
    rw [Ahead.token?_of_cons after, count]
    dsimp only
    rw [read, ok_bind]
    rfl

theorem readImportedName_complete {name : ImportedName} {a : Ahead} {rest : List Token}
    (stop : rest.head? ≠ some .asWord) (ahead : a.tokens = name.tokens ++ rest) :
    ∃ b, readImportedName a = .ok (name, b) ∧ b.tokens = rest := by
  obtain ⟨b, readFirst, afterFirst⟩ := readIdentifier_complete _ ahead
  obtain ⟨c, readRest, afterRest⟩ := readAlias_complete stop afterFirst
  refine ⟨c, ?_, afterRest⟩
  rw [readImportedName, readFirst, ok_bind]
  dsimp only
  rw [readRest, ok_bind]
  rfl

theorem readNames_complete {names : List ImportedName} (nonempty : names ≠ []) {a : Ahead}
    {rest : List Token} (noComma : rest.head? ≠ some .comma)
    (noAlias : rest.head? ≠ some .asWord)
    (ahead : a.tokens = separated .comma (names.map ImportedName.tokens) ++ rest) :
    ∃ b, readImportForm a = .ok (.names names, b) ∧ b.tokens = rest := by
  obtain ⟨first, names, rfl⟩ := List.exists_cons_of_ne_nil nonempty
  rw [separated_cons, List.append_assoc] at ahead
  have noStar : a.token? ≠ some .star := by
    rw [ImportedName.tokens] at ahead
    rw [Ahead.token?_of_cons ahead]
    simp
  obtain ⟨b, readFirst, afterFirst⟩ :=
    readImportedName_complete (head?_groups (by simp) noAlias) ahead
  obtain ⟨c, readRest, afterRest⟩ :=
    readsEach_names.complete_ahead noComma (readImportedName_complete (head?_groups (by simp) noAlias)) afterFirst
  refine ⟨c, ?_, afterRest⟩
  rw [readImportForm, if_neg noStar, readFirst, ok_bind]
  dsimp only
  rw [readRest, ok_bind]
  rfl

/-- What can follow an import or a block: the end of the text, or a word that opens either. -/
def OpensDeclaration (rest : List Token) : Prop :=
  ∀ token ∈ rest.head?, token = .importWord ∨ token = .fromWord ∨ ∃ kind, token = .block kind

theorem OpensDeclaration.head?_ne {rest : List Token} (opens : OpensDeclaration rest)
    {token : Token} (noImport : token ≠ .importWord) (noFrom : token ≠ .fromWord)
    (noBlock : ∀ kind, token ≠ .block kind) : rest.head? ≠ some token := by
  intro head
  rcases opens token head with same | same | ⟨kind, same⟩
  · exact noImport same
  · exact noFrom same
  · exact noBlock kind same

theorem readImportForm_complete {module : ModuleName} {form : ImportForm}
    (wellFormed : form.IsWellFormed module) (word : form.word = .fromWord) {a : Ahead}
    {rest : List Token} (opens : OpensDeclaration rest)
    (ahead : a.tokens = form.tokens ++ rest) :
    ∃ b c, readToken .importWord .importWord a = .ok (a.hereStop, b) ∧
      readImportForm b = .ok (form, c) ∧ c.tokens = rest := by
  cases form with
  | whole newName => cases word
  | everything =>
    obtain ⟨b, readWord, afterWord⟩ := readToken_complete .importWord ahead
    refine ⟨b, b.skip, readWord, ?_, Ahead.skip_of_cons afterWord⟩
    exact if_pos (Ahead.token?_of_cons afterWord)
  | names list =>
    obtain ⟨b, readWord, afterWord⟩ := readToken_complete .importWord ahead
    obtain ⟨c, readRest, afterRest⟩ := readNames_complete wellFormed.2.1
      (opens.head?_ne (by simp) (by simp) (by simp))
      (opens.head?_ne (by simp) (by simp) (by simp)) afterWord
    exact ⟨b, c, readWord, readRest, afterRest⟩

theorem ImportForm.tokens_follow (form : ImportForm) {rest : List Token}
    (opens : OpensDeclaration rest) :
    (form.tokens ++ rest).head? ≠ some .dot ∧
      ∀ name, (form.tokens ++ rest).head? ≠ some (.identifier name) := by
  rcases form with (_ | newName) | _ | list
  · exact ⟨opens.head?_ne (by simp) (by simp) (by simp),
      fun name => opens.head?_ne (by simp) (by simp) (by simp)⟩
  · simp [ImportForm.tokens, aliasTokens]
  · simp [ImportForm.tokens]
  · simp [ImportForm.tokens]

theorem readImport_complete {i : Import} (wellFormed : i.IsWellFormed) {a : Ahead}
    {rest : List Token} (opens : OpensDeclaration rest) (ahead : a.tokens = i.tokens ++ rest) :
    ∃ span b, readImport a = .ok ({ i with span := span }, b) ∧ b.tokens = rest := by
  obtain ⟨module, form, span⟩ := i
  obtain ⟨_, wellFormed⟩ := wellFormed
  dsimp only at wellFormed
  rw [Import.tokens, List.cons_append, List.append_assoc] at ahead
  obtain ⟨noDot, noName⟩ := form.tokens_follow opens
  cases word : form.word with
  | importWord =>
    obtain ⟨newName, rfl⟩ : ∃ newName, form = .whole newName := by
      cases form with
      | whole newName => exact ⟨newName, rfl⟩
      | everything => cases word
      | names => cases word
    obtain ⟨b, readModule, afterModule⟩ := readModuleName_complete false
      (Or.inl wellFormed.1) noDot noName (Ahead.skip_of_cons ahead)
    obtain ⟨c, readNew, afterNew⟩ :=
      readAlias_complete (opens.head?_ne (by simp) (by simp) (by simp)) afterModule
    have next : a.token? = some .importWord := Ahead.token?_of_cons ahead
    refine ⟨a.index.span a.here (lastStop a c), c, ?_, afterNew⟩
    rw [readImport, if_pos next, readModule, ok_bind]
    dsimp only
    rw [readNew, ok_bind]
    rfl
  | fromWord =>
    have named : module.segments ≠ [] ∨ true = true ∧ module.dots ≠ 0 := by
      cases form with
      | whole newName => cases word
      | everything => simpa [ImportForm.IsWellFormed] using wellFormed
      | names list => simpa using wellFormed.1
    have noImport : a.token? ≠ some .importWord := by
      rw [Ahead.token?_of_cons ahead, word]
      simp
    obtain ⟨b, readModule, afterModule⟩ :=
      readModuleName_complete true named noDot noName (Ahead.skip_of_cons ahead)
    obtain ⟨c, d, readWord, readForm, afterForm⟩ :=
      readImportForm_complete wellFormed word opens afterModule
    refine ⟨a.index.span a.here (lastStop a d), d, ?_, afterForm⟩
    rw [readImport, if_neg noImport, readModule, ok_bind]
    dsimp only
    rw [readWord, ok_bind]
    dsimp only
    rw [readForm, ok_bind]
    rfl
  | _ => cases form <;> cases word

theorem unescape_escapeQuoted (c : Char) (rest : List Char) :
    unescape (escapeQuoted c ++ rest) = (do return c :: (← unescape rest)) := by
  unfold escapeQuoted
  split
  next quote => rw [quote, List.cons_append, List.cons_append, List.nil_append, unescape]
  next quote =>
    split
    next slash => rw [slash, List.cons_append, List.cons_append, List.nil_append, unescape]
    next slash =>
      split
      next line => rw [line, List.cons_append, List.cons_append, List.nil_append, unescape]
      next line =>
        split
        next tab => rw [tab, List.cons_append, List.cons_append, List.nil_append, unescape]
        · rw [List.cons_append, List.nil_append, unescape]
          all_goals grind

theorem unescape_flatMap (text : List Char) : unescape (text.flatMap escapeQuoted) = .ok text := by
  induction text with
  | nil => rfl
  | cons c text ih =>
    rw [List.flatMap_cons, unescape_escapeQuoted, ih]
    rfl

theorem readFieldValue_complete (name : String) {value : FieldValue} {a : Ahead} {rest : List Token}
    (ahead : a.tokens = value.token :: rest) :
    ∃ b, readFieldValue name a = .ok (value, b) ∧ b.tokens = rest := by
  have next := Ahead.token?_of_cons ahead
  refine ⟨a.skip, ?_, Ahead.skip_of_cons ahead⟩
  rw [readFieldValue, next]
  cases value with
  | quoted text => simp only [FieldValue.token, unescape_flatMap, String.ofList_toList]
  | raw text => simp only [FieldValue.token, String.ofList_toList]

theorem readField_complete {field : Field} {a : Ahead} {rest : List Token}
    (ahead : a.tokens = field.tokens ++ rest) :
    ∃ span b, readField a = .ok ({ field with span := span }, b) ∧ b.tokens = rest := by
  obtain ⟨b, readName, afterName⟩ := readIdentifier_complete _ ahead
  obtain ⟨c, readEquals, afterEquals⟩ :=
    readToken_complete (.equals field.name) afterName
  obtain ⟨d, readValue, afterValue⟩ := readFieldValue_complete field.name afterEquals
  refine ⟨a.index.span a.here c.hereStop, d, ?_, afterValue⟩
  rw [readField, readName, ok_bind]
  dsimp only
  rw [readEquals, ok_bind]
  dsimp only
  rw [readValue, ok_bind]
  rfl

/-- What can follow a clause: another clause, or the brace that opens the block. -/
def OpensBody (rest : List Token) : Prop :=
  rest.head? ≠ some .comma ∧ rest.head? ≠ some .dot

/-- The clauses with other paths behind the word `token`. -/
def Clauses.put (clauses : Clauses) (paths : List Path) : Token → Clauses
  | .ofWord => { clauses with of := paths }
  | .onWord => { clauses with on := paths }
  | .versusWord => { clauses with versus := paths }
  | .contraWord => { clauses with contra := paths }
  | _ => clauses

theorem readClauses_stop {kind : NodeKind} {fuel : Nat} {seen : List String} {clauses : Clauses}
    {a : Ahead} {rest : List Token} (ahead : a.tokens = .openBrace :: rest) :
    readClauses kind fuel seen clauses a = .ok (clauses, a) := by
  cases fuel with
  | zero => rfl
  | succ fuel =>
    rw [readClauses, Ahead.token?_of_cons ahead]
    rfl

/-- A clause of the block's own kind that was not read before is read, and the reading goes on. -/
theorem readClauses_step {token : Token} {word : String} {kind : NodeKind}
    (opens : clauseOf token = some (word, kind)) {seen : List String}
    (fresh : seen.contains word = false) {fuel : Nat} {clauses result : Clauses} {a b : Ahead}
    {rest : List Token} (ahead : a.tokens = token :: rest)
    (read : readClause word clauses a.skip = .ok (result, b)) :
    readClauses kind (fuel + 1) seen clauses a =
      readClauses kind fuel (word :: seen) result b := by
  rw [readClauses, Ahead.token?_of_cons ahead, Option.bind_some, opens]
  dsimp only
  rw [if_neg (by simp), if_neg (by rw [fresh]; simp), read, ok_bind]

theorem readClause_paths {token : Token} {word : String} {kind : NodeKind}
    (opens : clauseOf token = some (word, kind)) (noWolog : token ≠ .wologWord) {clauses : Clauses}
    {paths : List Path} {a b : Ahead} (read : readPaths a = .ok (paths, b)) :
    readClause word clauses a = .ok (clauses.put paths token, b) := by
  cases token <;> cases opens
  case wologWord => exact absurd rfl noWolog
  all_goals
    rw [readClause, read, ok_bind]
    rfl

/-- One clause with paths, or none, is read with fuel to spare for what is ahead. -/
theorem readClauses_paths (token : Token) {word : String} {kind : NodeKind}
    (opens : clauseOf token = some (word, kind)) (noWolog : token ≠ .wologWord) {paths : List Path}
    {fuel : Nat} (clauses : Clauses) (unset : clauses.put [] token = clauses) {a : Ahead}
    {rest : List Token} (body : OpensBody rest) (ahead : a.tokens = clauseTokens token paths ++ rest)
    (enough : a.lexemes.length ≤ fuel) :
    ∃ fuel' seen b, readClauses kind fuel [] clauses a =
        readClauses kind fuel' seen (clauses.put paths token) b ∧
      (∀ other, other ≠ word → seen.contains other = false) ∧ b.tokens = rest ∧
      b.lexemes.length ≤ fuel' := by
  by_cases empty : paths = []
  · subst empty
    exact ⟨fuel, [], a, by rw [unset], fun _ _ => rfl, ahead, enough⟩
  · have some : clauseTokens token paths = token :: pathsTokens paths :=
      if_neg (by simpa [List.isEmpty_iff] using empty)
    rw [some, List.cons_append] at ahead
    obtain ⟨b, read, after⟩ := readPaths_complete empty body.1 body.2 (Ahead.skip_of_cons ahead)
    rw [a.length_lexemes, ahead, List.length_cons, List.length_append] at enough
    obtain ⟨fuel, rfl⟩ : ∃ less, fuel = less + 1 := ⟨fuel - 1, by omega⟩
    refine ⟨fuel, [word], b, ?_, ?_, after, ?_⟩
    · exact readClauses_step opens rfl ahead (readClause_paths opens noWolog read)
    · intro other different
      simpa using different
    · rw [b.length_lexemes, after]
      omega

/-- Where a block has a clause of one word only, that clause is read up to the brace. -/
theorem readClauses_single (token : Token) {word : String} {kind : NodeKind}
    (opens : clauseOf token = some (word, kind)) (noWolog : token ≠ .wologWord) {paths : List Path}
    (unset : ({} : Clauses).put [] token = {}) {a : Ahead} {rest : List Token}
    (ahead : a.tokens = clauseTokens token paths ++ .openBrace :: rest) :
    ∃ b, readClauses kind a.lexemes.length [] {} a = .ok (({} : Clauses).put paths token, b) ∧
      b.tokens = .openBrace :: rest := by
  have body : OpensBody (.openBrace :: rest) := by simp [OpensBody]
  obtain ⟨fuel, seen, b, read, -, after, -⟩ :=
    readClauses_paths token opens noWolog {} unset body ahead (Nat.le_refl _)
  exact ⟨b, read.trans (readClauses_stop after), after⟩

theorem readClauses_supposition {versus : List Path} {wolog : Bool} {a : Ahead} {rest : List Token}
    (ahead : a.tokens = clauseTokens .versusWord versus ++
      ((if wolog then [.wologWord] else []) ++ .openBrace :: rest)) :
    ∃ b, readClauses .supposition a.lexemes.length [] {} a =
        .ok ({ versus := versus, wolog := wolog }, b) ∧ b.tokens = .openBrace :: rest := by
  have body : OpensBody ((if wolog then [.wologWord] else []) ++ .openBrace :: rest) := by
    cases wolog <;> simp [OpensBody]
  obtain ⟨fuel, seen, b, read, fresh, after, enough⟩ :=
    readClauses_paths .versusWord rfl (by simp) {} rfl body ahead (Nat.le_refl _)
  cases wolog with
  | false => exact ⟨b, read.trans (readClauses_stop after), after⟩
  | true =>
    have after : b.tokens = .wologWord :: .openBrace :: rest := after
    rw [b.length_lexemes, after] at enough
    obtain ⟨fuel, rfl⟩ : ∃ less, fuel = less + 1 := ⟨fuel - 1, by simp at enough; omega⟩
    have last := Ahead.skip_of_cons after
    have step : readClauses .supposition (fuel + 1) seen { versus := versus } b =
        readClauses .supposition fuel ("wolog" :: seen) { versus := versus, wolog := true } b.skip :=
      readClauses_step rfl (fresh "wolog" (by decide)) after rfl
    exact ⟨b.skip, read.trans (step.trans (readClauses_stop last)), last⟩

theorem readClauses_complete {kind : NodeKind} {clauses : Clauses}
    (wellFormed : clauses.IsWellFormed kind) {a : Ahead} {rest : List Token}
    (ahead : a.tokens = clauses.tokens ++ .openBrace :: rest) :
    ∃ b, readClauses kind a.lexemes.length [] {} a = .ok (clauses, b) ∧
      b.tokens = .openBrace :: rest := by
  obtain ⟨of, on, versus, contra, wolog⟩ := clauses
  obtain ⟨hasOf, hasOn, hasVersus, hasContra, hasWolog, -⟩ := wellFormed
  have unset : ∀ {paths : List Path} {owner : NodeKind}, (paths ≠ [] → kind = owner) →
      kind ≠ owner → paths = [] :=
    fun owned other => Classical.byContradiction fun some => other (owned some)
  have noWolog : kind ≠ .supposition → wolog = false :=
    fun other => Bool.eq_false_iff.mpr fun is => other (hasWolog is)
  simp only [Clauses.tokens, List.append_assoc] at ahead
  cases kind with
  | deduction =>
    obtain rfl := unset hasOn (by simp)
    obtain rfl := unset hasVersus (by simp)
    obtain rfl := unset hasContra (by simp)
    obtain rfl := noWolog (by simp)
    exact readClauses_single .ofWord rfl (by simp) rfl ahead
  | note =>
    obtain rfl := unset hasOf (by simp)
    obtain rfl := unset hasVersus (by simp)
    obtain rfl := unset hasContra (by simp)
    obtain rfl := noWolog (by simp)
    exact readClauses_single .onWord rfl (by simp) rfl ahead
  | falsum =>
    obtain rfl := unset hasOf (by simp)
    obtain rfl := unset hasOn (by simp)
    obtain rfl := unset hasVersus (by simp)
    obtain rfl := noWolog (by simp)
    exact readClauses_single .contraWord rfl (by simp) rfl ahead
  | supposition =>
    obtain rfl := unset hasOf (by simp)
    obtain rfl := unset hasOn (by simp)
    obtain rfl := unset hasContra (by simp)
    exact readClauses_supposition ahead
  | _ =>
    obtain rfl := unset hasOf (by simp)
    obtain rfl := unset hasOn (by simp)
    obtain rfl := unset hasVersus (by simp)
    obtain rfl := unset hasContra (by simp)
    obtain rfl := noWolog (by simp)
    exact ⟨a, readClauses_stop ahead, ahead⟩

theorem readHeader_complete {header : Header} (wellFormed : header.IsWellFormed) {a : Ahead}
    {rest : List Token} (ahead : a.tokens = header.tokens ++ rest) :
    ∃ span b, readHeader header.kind a = .ok ({ header with span := span }, b) ∧
      b.tokens = rest := by
  rw [Header.tokens, List.cons_append, List.cons_append, List.append_assoc] at ahead
  obtain ⟨b, readName, afterName⟩ :=
    readIdentifier_complete (.blockName header.kind) (Ahead.skip_of_cons ahead)
  obtain ⟨c, readAll, afterAll⟩ := readClauses_complete wellFormed.2 afterName
  obtain ⟨d, readBrace, afterBrace⟩ :=
    readToken_complete (.openBrace header.kind header.name) afterAll
  refine ⟨a.index.span a.here 0, d, ?_, afterBrace⟩
  rw [readHeader, readName, ok_bind]
  dsimp only
  rw [readAll, ok_bind]
  dsimp only
  rw [readBrace, ok_bind]
  rfl

/-- Whether a name is free depends on the names of the items before, not on their order. -/
theorem fresh_of_nodup {before after : List String} {name : String}
    (distinct : (before.reverse ++ name :: after).Nodup) : before.contains name = false := by
  rw [Bool.eq_false_iff]
  intro member
  have member : name ∈ before.reverse := List.mem_reverse.mpr (List.contains_iff_mem.mp member)
  exact (List.nodup_append.mp distinct).2.2 name member name (List.mem_cons_self ..) rfl

theorem fieldNames_reverse (items : List Item) : fieldNames items.reverse = (fieldNames items).reverse :=
  List.filterMap_reverse

theorem blockNames_reverse (items : List Item) : blockNames items.reverse = (blockNames items).reverse :=
  List.filterMap_reverse

theorem HasDistinctNames.field_fresh {before items : List Item} {field : Field}
    (distinct : HasDistinctNames (before.reverse ++ .field field :: items)) :
    (fieldNames before).contains field.name = false := by
  have fields := distinct.1
  rw [fieldNames_append, fieldNames_reverse] at fields
  exact fresh_of_nodup fields

theorem HasDistinctNames.block_fresh {before items inner : List Item} {header : Header}
    (distinct : HasDistinctNames (before.reverse ++ .block header inner :: items)) :
    (blockNames before).contains header.name = false := by
  have blocks := distinct.2
  rw [blockNames_append, blockNames_reverse] at blocks
  exact fresh_of_nodup blocks

/-- The names do not depend on spans, nor on what is inside the blocks. -/
theorem HasDistinctNames.step {before items : List Item} {old : Item} (new : Item)
    (field : old.field?.map Field.name = new.field?.map Field.name)
    (block : (old.block?.map fun b => b.header.name) = new.block?.map fun b => b.header.name)
    (distinct : HasDistinctNames (before.reverse ++ old :: items)) :
    HasDistinctNames ((new :: before).reverse ++ items) := by
  simpa [HasDistinctNames, fieldNames, blockNames, List.filterMap_cons, field, block] using distinct

theorem Item.tokens_ne_nil (i : Item) : 0 < i.tokens.length := by
  cases i <;> simp [Item.tokens, Field.tokens, Header.tokens]

theorem Header.tokens_ne_nil (header : Header) : 0 < header.tokens.length := by
  simp [Header.tokens]

theorem readItems_complete {kind : NodeKind} (name : String) {fuel : Nat} (before : List Item)
    {items : List Item} (wellFormed : Item.AreWellFormed kind items)
    (distinct : HasDistinctNames (before.reverse ++ items)) {a : Ahead} {rest : List Token}
    (enough : a.lexemes.length < fuel)
    (ahead : a.tokens = Item.listTokens items ++ .closeBrace :: rest) :
    ∃ items' stop b, readItems kind name fuel before a = .ok ((before.reverse ++ items', stop), b) ∧
      Item.eraseSpansList items' = Item.eraseSpansList items ∧ b.tokens = rest := by
  induction fuel generalizing kind name before items a rest with
  | zero => cases enough
  | succ fuel ih =>
    match items, wellFormed, distinct, ahead with
    | [], _, _, ahead =>
      refine ⟨[], a.hereStop, a.skip, ?_, rfl, Ahead.skip_of_cons ahead⟩
      rw [readItems, Ahead.token?_of_cons ahead, List.append_nil]
    | .field field :: items, wellFormed, distinct, ahead =>
      rw [Item.listTokens, List.append_assoc] at ahead
      obtain ⟨span, b, readFirst, afterFirst⟩ := readField_complete ahead
      have less : b.lexemes.length < fuel := by
        rw [a.length_lexemes, ahead, List.length_append, ← afterFirst, ← b.length_lexemes] at enough
        have := (Item.field field).tokens_ne_nil
        omega
      have next : a.token? = some (.identifier field.name) := Ahead.token?_of_cons ahead
      obtain ⟨items', stop, c, readRest, same, afterRest⟩ :=
        ih name _ wellFormed.2 (distinct.step (.field { field with span := span }) (by rfl) (by rfl)) less
          afterFirst
      refine ⟨.field { field with span := span } :: items', stop, c, ?_, ?_, afterRest⟩
      · rw [readItems, next]
        dsimp only
        rw [readFirst, ok_bind]
        dsimp only
        rw [if_neg (by rw [distinct.field_fresh]; simp), readRest]
        simp
      · rw [Item.eraseSpansList, Item.eraseSpansList, same]
        rfl
    | .block header inner :: items, wellFormed, distinct, ahead =>
      obtain ⟨⟨nests, headerWell, distinctInner, innerWell⟩, itemsWell⟩ := wellFormed
      have next : a.token? = some (.block header.kind) := Ahead.token?_of_cons ahead
      rw [Item.listTokens, Item.tokens, List.append_assoc, List.append_assoc, List.append_assoc,
        List.singleton_append] at ahead
      obtain ⟨span, b, readFirst, afterFirst⟩ := readHeader_complete headerWell ahead
      have less : b.lexemes.length < fuel := by
        rw [a.length_lexemes, ahead, List.length_append, ← afterFirst, ← b.length_lexemes] at enough
        have := header.tokens_ne_nil
        omega
      obtain ⟨inner', stop, c, readInner, sameInner, afterInner⟩ :=
        ih header.name [] innerWell distinctInner less afterFirst
      have lessAfter : c.lexemes.length < fuel := by
        rw [b.length_lexemes, afterFirst, List.length_append] at less
        rw [c.length_lexemes, afterInner]
        simp only [List.length_append, List.length_cons] at less ⊢
        omega
      obtain ⟨items', stop', d, readRest, same, afterRest⟩ :=
        ih name _ itemsWell
          (distinct.step (.block { header with span := a.index.span a.here stop } inner') (by rfl) (by rfl))
          lessAfter afterInner
      refine ⟨.block { header with span := a.index.span a.here stop } inner' :: items', stop', d, ?_, ?_,
        afterRest⟩
      · rw [readItems, next]
        dsimp only
        rw [if_neg (by simp [nests]), readFirst, ok_bind]
        dsimp only
        rw [readInner, ok_bind]
        dsimp only
        rw [if_neg (by rw [distinct.block_fresh]; simp)]
        rw [List.reverse_nil, List.nil_append, readRest]
        simp
      · rw [Item.eraseSpansList, Item.eraseSpansList, same, Item.eraseSpans, Item.eraseSpans,
          sameInner]

theorem readBlock_complete {block : Block} (wellFormed : block.IsWellFormed) {a : Ahead}
    {rest : List Token} (ahead : a.tokens = block.tokens ++ rest) :
    ∃ block' b, readBlock block.header.kind a = .ok (block', b) ∧
      block'.header.name = block.header.name ∧ block'.eraseSpans = block.eraseSpans ∧
      b.tokens = rest := by
  rw [Block.tokens, Item.tokens, List.append_assoc, List.append_assoc, List.singleton_append] at ahead
  obtain ⟨span, b, readFirst, afterFirst⟩ := readHeader_complete wellFormed.header ahead
  obtain ⟨items, stop, c, readInner, same, afterInner⟩ :=
    readItems_complete block.header.name [] wellFormed.items wellFormed.distinct
      (Nat.lt_succ_self b.lexemes.length) afterFirst
  refine ⟨⟨{ block.header with span := a.index.span a.here stop }, items⟩, c, ?_, rfl, ?_, afterInner⟩
  · rw [readBlock, readFirst, ok_bind]
    dsimp only
    rw [readInner, ok_bind]
    rfl
  · rw [Block.eraseSpans, Block.eraseSpans, same]

theorem bindNames_complete {bound names : List String} (distinct : (names ++ bound).Nodup) :
    bindNames bound names = .ok (names.reverse ++ bound) := by
  induction names generalizing bound with
  | nil => rfl
  | cons name names ih =>
    obtain ⟨fresh, _⟩ := List.nodup_cons.mp distinct
    have free : bound.contains name = false := by
      rw [Bool.eq_false_iff]
      exact fun member => fresh (List.mem_append_right _ (List.contains_iff_mem.mp member))
    rw [bindNames, if_neg (by rw [free]; simp), ih]
    · simp
    · exact List.perm_middle.nodup_iff.mpr distinct

theorem Import.tokens_ne_nil (i : Import) : 0 < i.tokens.length := by simp [Import.tokens]

theorem Block.tokens_ne_nil (b : Block) : 0 < b.tokens.length := (Item.block b.header b.items).tokens_ne_nil

theorem opensDeclaration_imports {imports : List Import} {rest : List Token}
    (opens : OpensDeclaration rest) : OpensDeclaration (imports.flatMap Import.tokens ++ rest) := by
  cases imports with
  | nil => exact opens
  | cons i imports =>
    obtain ⟨module, form, span⟩ := i
    intro token head
    cases form <;> cases head <;> simp [ImportForm.word]

theorem opensDeclaration_blocks (blocks : List Block) :
    OpensDeclaration (blocks.flatMap Block.tokens) := by
  cases blocks with
  | nil => simp [OpensDeclaration]
  | cons b blocks =>
    intro token head
    cases head
    simp

theorem Source.eraseSpans_imports {s t : Source} {i j : Import}
    (first : { i with span := {} } = { j with span := {} }) (rest : s.eraseSpans = t.eraseSpans) :
    ({ s with imports := i :: s.imports } : Source).eraseSpans =
      ({ t with imports := j :: t.imports } : Source).eraseSpans := by
  simp only [Source.eraseSpans, Source.mk.injEq] at rest
  simp only [Source.eraseSpans, List.map_cons, rest, first]

theorem Source.eraseSpans_blocks {s t : Source} {b c : Block}
    (first : b.eraseSpans = c.eraseSpans) (rest : s.eraseSpans = t.eraseSpans) :
    ({ s with blocks := b :: s.blocks } : Source).eraseSpans =
      ({ t with blocks := c :: t.blocks } : Source).eraseSpans := by
  simp only [Source.eraseSpans, Source.mk.injEq] at rest
  simp only [Source.eraseSpans, List.map_cons, rest, first]

/-- The tokens of a source are read as the source: first its imports, then its blocks. -/
theorem readDeclarations_import {fuel : Nat} {bound bound' : List String} {a b : Ahead} {i : Import}
    {rest : Source} (opens : a.token? = some i.form.word) (readFirst : readImport a = .ok (i, b))
    (bind : bindNames bound i.localNames = .ok bound')
    (readRest : readDeclarations fuel bound' b = .ok rest) :
    readDeclarations (fuel + 1) bound a = .ok { rest with imports := i :: rest.imports } := by
  rw [readDeclarations, opens]
  cases same : i.form <;>
  · dsimp only [ImportForm.word]
    rw [readFirst, ok_bind]
    dsimp only
    rw [bind]
    dsimp only
    rw [readRest]
    rfl

theorem readDeclarations_block {fuel : Nat} {bound bound' : List String} {a b : Ahead} {block : Block}
    {kind : NodeKind} {rest : Source} (opens : a.token? = some (.block kind))
    (outermost : kind = .deduction ∨ kind = .note) (readFirst : readBlock kind a = .ok (block, b))
    (bind : bindNames bound [block.header.name] = .ok bound')
    (readRest : readDeclarations fuel bound' b = .ok rest) :
    readDeclarations (fuel + 1) bound a = .ok { rest with blocks := block :: rest.blocks } := by
  rw [readDeclarations, opens]
  dsimp only
  rw [if_pos (by simpa using outermost), readFirst, ok_bind]
  dsimp only
  rw [bind]
  dsimp only
  rw [readRest]
  rfl

theorem readDeclarations_complete {s : Source} (imports : ∀ i ∈ s.imports, i.IsWellFormed)
    (blocks : ∀ b ∈ s.blocks, b.IsWellFormed) {bound : List String}
    (distinct : (s.boundNames ++ bound).Nodup) {fuel : Nat} {a : Ahead}
    (enough : a.lexemes.length < fuel) (ahead : a.tokens = s.tokens) :
    ∃ s', readDeclarations fuel bound a = .ok s' ∧ s'.eraseSpans = s.eraseSpans := by
  induction fuel generalizing s bound a with
  | zero => cases enough
  | succ fuel ih =>
    rw [a.length_lexemes] at enough
    match s, imports, blocks, distinct, ahead with
    | ⟨[], []⟩, _, _, _, ahead =>
      refine ⟨{}, ?_, rfl⟩
      rw [readDeclarations, a.token?_eq, ahead]
      rfl
    | ⟨[], block :: others⟩, imports, blocks, distinct, ahead =>
      obtain ⟨first, blocks⟩ := List.forall_mem_cons.mp blocks
      have ahead : a.tokens = block.tokens ++ (⟨[], others⟩ : Source).tokens := ahead
      obtain ⟨block', b, readFirst, name, sameFirst, afterFirst⟩ := readBlock_complete first ahead
      have next : a.token? = some (.block block.header.kind) := Ahead.token?_of_cons ahead
      have less : b.lexemes.length < fuel := by
        have := block.tokens_ne_nil
        rw [ahead, List.length_append, ← afterFirst, ← b.length_lexemes] at enough
        omega
      have bind : bindNames bound [block.header.name] = .ok (block.header.name :: bound) :=
        bindNames_complete (distinct.sublist (by simp [Source.boundNames]))
      obtain ⟨rest, readRest, sameRest⟩ :=
        ih (s := ⟨[], others⟩) imports blocks (List.perm_middle.nodup_iff.mpr distinct) less afterFirst
      refine ⟨{ rest with blocks := block' :: rest.blocks }, ?_, ?_⟩
      · exact readDeclarations_block next first.kind readFirst (name ▸ bind) readRest
      · exact Source.eraseSpans_blocks (t := ⟨[], others⟩) sameFirst sameRest
    | ⟨i :: others, blocks⟩, imports, blocksWell, distinct, ahead =>
      obtain ⟨first, imports⟩ := List.forall_mem_cons.mp imports
      have ahead : a.tokens = i.tokens ++ (⟨others, blocks⟩ : Source).tokens := by
        rw [ahead, Source.tokens, List.flatMap_cons, List.append_assoc]
        rfl
      have opens : OpensDeclaration (⟨others, blocks⟩ : Source).tokens :=
        opensDeclaration_imports (opensDeclaration_blocks blocks)
      obtain ⟨span, b, readFirst, afterFirst⟩ := readImport_complete first opens ahead
      have less : b.lexemes.length < fuel := by
        have := i.tokens_ne_nil
        rw [ahead, List.length_append, ← afterFirst, ← b.length_lexemes] at enough
        omega
      have distinct : (i.localNames ++ ((⟨others, blocks⟩ : Source).boundNames ++ bound)).Nodup := by
        simpa [Source.boundNames] using distinct
      have bind : bindNames bound i.localNames = .ok (i.localNames.reverse ++ bound) :=
        bindNames_complete (distinct.sublist (by simp))
      have distinctRest : ((⟨others, blocks⟩ : Source).boundNames ++
          (i.localNames.reverse ++ bound)).Nodup := by
        refine (List.Perm.nodup_iff ?_).mp distinct
        rw [← List.append_assoc, ← List.append_assoc]
        refine List.Perm.append_right _ ?_
        exact ((List.reverse_perm _).symm.append_right _).trans List.perm_append_comm
      obtain ⟨rest, readRest, sameRest⟩ :=
        ih (s := ⟨others, blocks⟩) imports blocksWell distinctRest less afterFirst
      refine ⟨{ rest with imports := { i with span := span } :: rest.imports }, ?_,
        Source.eraseSpans_imports (t := ⟨others, blocks⟩) rfl sameRest⟩
      exact readDeclarations_import (Ahead.token?_of_cons ahead) readFirst bind readRest

theorem Source.parse_of_spells {s : Source} (wellFormed : s.IsWellFormed) {text : String}
    (spells : Spells text.toList s.tokens) :
    ∃ s', Source.parse text = .ok s' ∧ s'.eraseSpans = s.eraseSpans := by
  obtain ⟨noFault, tokens⟩ := spells 0
  have distinct : (s.boundNames ++ []).Nodup := by simpa using wellFormed.distinct
  obtain ⟨s', read, same⟩ := readDeclarations_complete wellFormed.imports wellFormed.blocks distinct
    (Nat.lt_succ_self (Lexemes.ofText text).lexemes.length)
    (show Ahead.tokens ⟨(Lexemes.ofText text).lexemes, (Lexemes.ofText text).stop, .ofText text⟩ = _ from tokens)
  refine ⟨s', ?_, same⟩
  rw [Source.parse, show (Lexemes.ofText text).fault = none from noFault]
  exact read

end Deductions
