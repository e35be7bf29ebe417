import Deductions.Proofs.Source.Language
import Deductions.Proofs.Source.Values

namespace Deductions

/-- Both are refused for the same fault, or both give results that are related. -/
inductive AlikeUpTo {α : Type} (related : α → α → Prop) : (read read' : Except SyntaxError α) → Prop where
  | refused {e e' : SyntaxError} (same : e.fault = e'.fault) : AlikeUpTo related (.error e) (.error e')
  | read {r r' : α} (both : related r r') : AlikeUpTo related (.ok r) (.ok r')

/-- Results that are related, with the same tokens still ahead. -/
def SameAhead {α : Type} (related : α → α → Prop) (r r' : α × Ahead) : Prop :=
  related r.1 r'.1 ∧ r.2.tokens = r'.2.tokens

/-- Readers that take the same tokens for results that are related. -/
abbrev ReadAhead {α : Type} (related : α → α → Prop) : (read read' : Except SyntaxError (α × Ahead)) → Prop :=
  AlikeUpTo (SameAhead related)

section

variable {α β : Type} {related : α → α → Prop} {related' : β → β → Prop}

/-- What follows two readers that are alike is alike if it is for all that they may give. -/
theorem AlikeUpTo.bind {read read' : Except SyntaxError (α × Ahead)} {next next' : α × Ahead → Except SyntaxError β}
    (first : ReadAhead related read read')
    (others : ∀ r r' b b', related r r' → b.tokens = b'.tokens →
      AlikeUpTo related' (next (r, b)) (next' (r', b'))) :
    AlikeUpTo related' (read >>= next) (read' >>= next') := by
  cases first with
  | refused same => exact .refused same
  | read both => exact others _ _ _ _ both.1 both.2

variable {a a' : Ahead} (same : a.tokens = a'.tokens)
include same

theorem Ahead.token?_congr : a.token? = a'.token? := by
  rw [a.token?_eq, a'.token?_eq, same]

theorem Ahead.skip_congr : a.skip.tokens = a'.skip.tokens := by
  rw [a.tokens_skip, a'.tokens_skip, same]

theorem Ahead.length_congr : a.lexemes.length = a'.lexemes.length := by
  rw [a.length_lexemes, a'.length_lexemes, same]

theorem AlikeUpTo.unexpected (what : Expectation) : AlikeUpTo related (a.unexpected what) (a'.unexpected what) :=
  .refused (congrArg (SyntaxFault.expected what) (Ahead.token?_congr same))

theorem readToken_alike (token : Token) (what : Expectation) :
    ReadAhead (fun _ _ => True) (readToken token what a) (readToken token what a') := by
  rw [readToken, readToken, Ahead.token?_congr same]
  split
  · exact .read ⟨trivial, Ahead.skip_congr same⟩
  · exact .unexpected same what

theorem readIdentifier_alike (what : Expectation) :
    ReadAhead Eq (readIdentifier what a) (readIdentifier what a') := by
  rw [readIdentifier, readIdentifier, Ahead.token?_congr same]
  split
  · exact .read ⟨rfl, Ahead.skip_congr same⟩
  · exact .unexpected same what

theorem readAlias_alike : ReadAhead Eq (readAlias a) (readAlias a') := by
  rw [readAlias, readAlias, Ahead.token?_congr same]
  split
  · refine (readIdentifier_alike (Ahead.skip_congr same) _).bind ?_
    rintro name _ b b' rfl same
    exact .read ⟨rfl, same⟩
  · exact .read ⟨rfl, same⟩

omit same in
theorem ReadsEach.alike {mark : Token} {one : Ahead → Except SyntaxError (α × Ahead)}
    {loop : Nat → Ahead → Except SyntaxError (List α × Ahead)} (reads : ReadsEach mark one loop)
    (each : ∀ {a a' : Ahead}, a.tokens = a'.tokens → ReadAhead Eq (one a) (one a')) (fuel : Nat) {a a' : Ahead}
    (same : a.tokens = a'.tokens) : ReadAhead Eq (loop fuel a) (loop fuel a') := by
  induction fuel generalizing a a' with
  | zero =>
    rw [reads.stop, reads.stop]
    exact .read ⟨rfl, same⟩
  | succ fuel ih =>
    rw [reads.step, reads.step, Ahead.token?_congr same]
    split
    · refine (each (Ahead.skip_congr same)).bind ?_
      rintro first _ b b' rfl same
      refine (ih same).bind ?_
      rintro others _ c c' rfl same
      exact .read ⟨rfl, same⟩
    · exact .read ⟨rfl, same⟩

theorem readDotted_alike : ReadAhead Eq (readDotted a) (readDotted a') := by
  refine (readIdentifier_alike same _).bind ?_
  rintro first _ b b' rfl same
  dsimp only
  rw [Ahead.length_congr same]
  refine (readsEach_segments.alike (readIdentifier_alike · _) _ same).bind ?_
  rintro segments _ c c' rfl same
  exact .read ⟨rfl, same⟩

theorem readPath_alike : ReadAhead Eq (readPath a) (readPath a') := by
  refine (readIdentifier_alike same _).bind ?_
  rintro first _ b b' rfl same
  dsimp only
  rw [Ahead.length_congr same]
  refine (readsEach_segments.alike (readIdentifier_alike · _) _ same).bind ?_
  rintro segments _ c c' rfl same
  exact .read ⟨rfl, same⟩

theorem readPaths_alike : ReadAhead Eq (readPaths a) (readPaths a') := by
  refine (readPath_alike same).bind ?_
  rintro path _ b b' rfl same
  dsimp only
  rw [Ahead.length_congr same]
  refine (readsEach_paths.alike readPath_alike _ same).bind ?_
  rintro paths _ c c' rfl same
  exact .read ⟨rfl, same⟩

omit same in
theorem countDots_eq (lexemes : List Lexeme) :
    (countDots lexemes).1 = ((lexemes.map Lexeme.token).takeWhile (· == .dot)).length ∧
      (countDots lexemes).2.map Lexeme.token = (lexemes.map Lexeme.token).dropWhile (· == .dot) := by
  rw [countDots, List.takeWhile_map, List.length_map, List.dropWhile_map]
  exact ⟨rfl, rfl⟩

theorem readModuleName_alike (bare : Bool) : ReadAhead Eq (readModuleName bare a) (readModuleName bare a') := by
  have dots : (countDots a.lexemes).1 = (countDots a'.lexemes).1 := by
    rw [(countDots_eq _).1, (countDots_eq _).1]
    exact congrArg (fun tokens : List Token => (tokens.takeWhile (· == .dot)).length) same
  have behind : Ahead.tokens { a with lexemes := (countDots a.lexemes).2 } =
      Ahead.tokens { a' with lexemes := (countDots a'.lexemes).2 } := by
    rw [Ahead.tokens, Ahead.tokens, (countDots_eq _).2, (countDots_eq _).2]
    exact congrArg (fun tokens : List Token => tokens.dropWhile (· == .dot)) same
  unfold readModuleName
  dsimp only
  rw [Ahead.token?_congr behind, dots]
  split
  · refine (readDotted_alike behind).bind ?_
    rintro segments _ b b' rfl same
    exact .read ⟨rfl, same⟩
  · split
    · exact .unexpected behind _
    · exact .read ⟨rfl, behind⟩

theorem readImportedName_alike : ReadAhead Eq (readImportedName a) (readImportedName a') := by
  refine (readIdentifier_alike same _).bind ?_
  rintro name _ b b' rfl same
  refine (readAlias_alike same).bind ?_
  rintro newName _ c c' rfl same
  exact .read ⟨rfl, same⟩

theorem readImportForm_alike : ReadAhead Eq (readImportForm a) (readImportForm a') := by
  rw [readImportForm, readImportForm, Ahead.token?_congr same]
  split
  · exact .read ⟨rfl, Ahead.skip_congr same⟩
  · refine (readImportedName_alike same).bind ?_
    rintro name _ b b' rfl same
    dsimp only
    rw [Ahead.length_congr same]
    refine (readsEach_names.alike readImportedName_alike _ same).bind ?_
    rintro names _ c c' rfl same
    exact .read ⟨rfl, same⟩

theorem readImport_alike : ReadAhead (fun i i' => { i with span := {} } = ({ i' with span := {} } : Import))
    (readImport a) (readImport a') := by
  unfold readImport
  rw [Ahead.token?_congr same]
  split
  · refine (readModuleName_alike (Ahead.skip_congr same) _).bind ?_
    rintro module _ b b' rfl same
    refine (readAlias_alike same).bind ?_
    rintro newName _ c c' rfl same
    exact .read ⟨rfl, same⟩
  · refine (readModuleName_alike (Ahead.skip_congr same) _).bind ?_
    rintro module _ b b' rfl same
    refine (readToken_alike same _ _).bind ?_
    rintro _ _ c c' - same
    refine (readImportForm_alike same).bind ?_
    rintro form _ d d' rfl same
    exact .read ⟨rfl, same⟩

theorem readFieldValue_alike (name : String) : ReadAhead Eq (readFieldValue name a) (readFieldValue name a') := by
  rw [readFieldValue, readFieldValue, Ahead.token?_congr same]
  split
  · split
    · exact .read ⟨rfl, Ahead.skip_congr same⟩
    · exact .refused rfl
  · exact .read ⟨rfl, Ahead.skip_congr same⟩
  · exact .refused rfl

theorem readField_alike : ReadAhead (fun f f' => { f with span := {} } = ({ f' with span := {} } : Field))
    (readField a) (readField a') := by
  refine (readIdentifier_alike same _).bind ?_
  rintro name _ b b' rfl same
  refine (readToken_alike same _ _).bind ?_
  rintro _ _ c c' - same
  refine (readFieldValue_alike same _).bind ?_
  rintro value _ d d' rfl same
  exact .read ⟨rfl, same⟩

theorem readClause_alike (word : String) (clauses : Clauses) :
    ReadAhead Eq (readClause word clauses a) (readClause word clauses a') := by
  unfold readClause
  split
  case h_5 => exact .read ⟨rfl, same⟩
  all_goals
    refine (readPaths_alike same).bind ?_
    rintro paths _ b b' rfl same
    exact .read ⟨rfl, same⟩

omit same in
theorem readClauses_alike (kind : NodeKind) (fuel : Nat) (seen : List String) (clauses : Clauses) {a a' : Ahead}
    (same : a.tokens = a'.tokens) :
    ReadAhead Eq (readClauses kind fuel seen clauses a) (readClauses kind fuel seen clauses a') := by
  induction fuel generalizing seen clauses a a' with
  | zero => exact .read ⟨rfl, same⟩
  | succ fuel ih =>
    rw [readClauses, readClauses, Ahead.token?_congr same]
    split
    · exact .read ⟨rfl, same⟩
    · split
      · exact .refused rfl
      · split
        · exact .refused rfl
        · refine (readClause_alike (Ahead.skip_congr same) _ _).bind ?_
          rintro clauses _ b b' rfl same
          exact ih _ _ same

theorem readHeader_alike (kind : NodeKind) :
    ReadAhead (fun h h' => { h with span := {} } = ({ h' with span := {} } : Header))
      (readHeader kind a) (readHeader kind a') := by
  refine (readIdentifier_alike (Ahead.skip_congr same) _).bind ?_
  rintro name _ b b' rfl same
  dsimp only
  rw [Ahead.length_congr same]
  refine (readClauses_alike _ _ _ _ same).bind ?_
  rintro clauses _ c c' rfl same
  refine (readToken_alike same _ _).bind ?_
  rintro _ _ d d' - same
  exact .read ⟨rfl, same⟩

end

theorem Item.eraseSpansList_eq_map (items : List Item) : Item.eraseSpansList items = items.map Item.eraseSpans := by
  induction items with
  | nil => rfl
  | cons i items ih => rw [eraseSpansList, List.map_cons, ih]

theorem Item.eraseSpansList_reverse {items items' : List Item}
    (same : Item.eraseSpansList items = Item.eraseSpansList items') :
    Item.eraseSpansList items.reverse = Item.eraseSpansList items'.reverse := by
  rw [eraseSpansList_eq_map, eraseSpansList_eq_map] at same
  rw [eraseSpansList_eq_map, eraseSpansList_eq_map, List.map_reverse, List.map_reverse, same]

theorem fieldNames_congr {items items' : List Item} (same : Item.eraseSpansList items = Item.eraseSpansList items') :
    fieldNames items = fieldNames items' := by
  rw [← fieldNames_eraseSpansList, same, fieldNames_eraseSpansList]

theorem blockNames_congr {items items' : List Item} (same : Item.eraseSpansList items = Item.eraseSpansList items') :
    blockNames items = blockNames items' := by
  rw [← blockNames_eraseSpansList, same, blockNames_eraseSpansList]

/-- The items of a block are read alike behind items that are the same but for their spans. -/
theorem readItems_alike (kind : NodeKind) (name : String) (fuel : Nat) {before before' : List Item} {a a' : Ahead}
    (sameItems : Item.eraseSpansList before = Item.eraseSpansList before') (same : a.tokens = a'.tokens) :
    ReadAhead (fun r r' => Item.eraseSpansList r.1 = Item.eraseSpansList r'.1)
      (readItems kind name fuel before a) (readItems kind name fuel before' a') := by
  induction fuel generalizing kind name before before' a a' with
  | zero => exact .refused rfl
  | succ fuel ih =>
    rw [readItems, readItems, Ahead.token?_congr same]
    split
    · exact .refused rfl
    · exact .read ⟨Item.eraseSpansList_reverse sameItems, Ahead.skip_congr same⟩
    · refine (readField_alike same).bind ?_
      rintro ⟨field, value, span⟩ ⟨_, _, span'⟩ b b' ⟨⟩ same
      dsimp only
      rw [fieldNames_congr sameItems]
      split
      · exact .refused rfl
      · refine ih kind name ?_ same
        rw [Item.eraseSpansList, Item.eraseSpansList, sameItems]
        rfl
    · split
      · exact .refused rfl
      · refine (readHeader_alike same _).bind ?_
        rintro ⟨inner, title, clauses, span⟩ ⟨_, _, _, span'⟩ b b' ⟨⟩ same
        refine (ih _ title rfl same).bind ?_
        rintro ⟨items, stop⟩ ⟨items', stop'⟩ c c' (sameInner : Item.eraseSpansList items = _) same
        dsimp only
        rw [blockNames_congr sameItems]
        split
        · exact .refused rfl
        · refine ih kind name ?_ same
          rw [Item.eraseSpansList, Item.eraseSpansList, sameItems, Item.eraseSpans, Item.eraseSpans, sameInner]
    · exact .unexpected same _

theorem readBlock_alike (kind : NodeKind) {a a' : Ahead} (same : a.tokens = a'.tokens) :
    ReadAhead (fun b b' => b.eraseSpans = b'.eraseSpans) (readBlock kind a) (readBlock kind a') := by
  refine (readHeader_alike same kind).bind ?_
  rintro ⟨_, name, clauses, span⟩ ⟨_, _, _, span'⟩ b b' ⟨⟩ same
  dsimp only
  rw [Ahead.length_congr same]
  refine (readItems_alike _ name _ rfl same).bind ?_
  rintro ⟨items, stop⟩ ⟨items', stop'⟩ c c' sameItems same
  exact .read ⟨congrArg (Block.mk _) sameItems, same⟩

/-- The results are put together alike with those of the declarations behind them. -/
theorem AlikeUpTo.map {α : Type} {related : α → α → Prop} {read read' : Except SyntaxError α}
    {f f' : α → α} (both : AlikeUpTo related read read') (keeps : ∀ r r', related r r' → related (f r) (f' r')) :
    AlikeUpTo related (do return f (← read)) (do return f' (← read')) := by
  cases both with
  | refused same => exact .refused same
  | read both => exact .read (keeps _ _ both)

theorem readDeclarations_alike (fuel : Nat) (bound : List String) {a a' : Ahead} (same : a.tokens = a'.tokens) :
    AlikeUpTo (fun s s' => s.eraseSpans = s'.eraseSpans) (readDeclarations fuel bound a)
      (readDeclarations fuel bound a') := by
  induction fuel generalizing bound a a' with
  | zero => exact .read rfl
  | succ fuel ih =>
    rw [readDeclarations, readDeclarations, Ahead.token?_congr same]
    split
    · exact .read rfl
    -- both words that open an import are read alike
    iterate 2
      · refine (readImport_alike same).bind ?_
        rintro ⟨module, form, span⟩ ⟨_, _, span'⟩ b b' ⟨⟩ same
        dsimp only [Import.localNames]
        split
        · exact .refused rfl
        · exact (ih _ same).map fun _ _ rest => Source.eraseSpans_imports rfl rest
    · split
      · refine (readBlock_alike _ same).bind ?_
        intro block block' b b' sameBlock same
        have name : block.header.name = block'.header.name := congrArg (·.header.name) sameBlock
        dsimp only
        rw [name]
        split
        · exact .refused rfl
        · exact (ih _ same).map fun _ _ rest => Source.eraseSpans_blocks sameBlock rest
      · exact .refused rfl
    · exact .refused rfl
    · exact .unexpected same _

/-- Texts with the same tokens are read alike. -/
theorem Source.parse_alike {text text' : String} (lexes : (Lexemes.ofText text).fault = none)
    (lexes' : (Lexemes.ofText text').fault = none) (same : tokensOf text = tokensOf text') :
    AlikeUpTo (fun s s' => s.eraseSpans = s'.eraseSpans) (Source.parse text) (Source.parse text') := by
  have length : (Lexemes.ofText text).lexemes.length = (Lexemes.ofText text').lexemes.length := by
    simpa only [tokensOf, List.length_map] using congrArg List.length same
  rw [parse, parse, lexes, lexes']
  dsimp only
  rw [length]
  exact readDeclarations_alike _ _ same

end Deductions
