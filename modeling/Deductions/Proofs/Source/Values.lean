import Deductions.Proofs.Source.Accepted

namespace Deductions

namespace Token

theorem splitString_eq {text body rest : List Char} (split : splitString text = some (body, rest)) :
    text = body ++ '"' :: rest := by
  fun_induction splitString text generalizing body with
  | case1 => cases split
  | case2 others =>
    cases split
    rfl
  | case3 => cases split
  | case4 c others _ ih =>
    obtain ⟨⟨inner, after⟩, found, same⟩ := Option.map_eq_some_iff.mp split
    cases same
    rw [ih found]
    rfl
  | case5 => cases split
  | case6 c others _ _ _ ih =>
    obtain ⟨⟨inner, after⟩, found, same⟩ := Option.map_eq_some_iff.mp split
    cases same
    rw [ih found]
    rfl

theorem splitRaw_eq {text body rest : List Char} (split : splitRaw text = some (body, rest)) :
    text = body ++ '@' :: '@' :: '@' :: rest := by
  fun_induction splitRaw text generalizing body with
  | case1 => cases split
  | case2 others =>
    cases split
    rfl
  | case3 c others _ ih =>
    obtain ⟨⟨inner, after⟩, found, same⟩ := Option.map_eq_some_iff.mp split
    cases same
    rw [ih found]
    rfl

theorem written_ofWordText (word : String) : (ofWordText word).written = word.toList := by
  by_cases reserved : word ∈ reservedWords
  · rcases List.mem_append.mp reserved with clause | keyword
    · simp only [List.mem_cons, List.not_mem_nil, or_false] at clause
      rcases clause with rfl | rfl | rfl | rfl | rfl | rfl | rfl | rfl <;> rfl
    · obtain ⟨kind, _, rfl⟩ := List.mem_map.mp keyword
      rw [ofWordText_keyword]
      rfl
  · rw [ofWordText_of_not_reserved reserved]
    rfl

theorem written_ofMark? {c : Char} {token : Token} (mark : ofMark? c = some token) : token.written = [c] := by
  unfold ofMark? at mark
  repeat' split at mark
  all_goals
    cases mark
    try subst_vars
    try rfl

/-- A text begins with the token that is read from it. -/
theorem scan_eq {text rest : List Char} {token : Token} (scanned : scan text = .ok (token, rest)) :
    text = token.written ++ rest := by
  unfold scan at scanned
  split at scanned
  · cases scanned
  · split at scanned
    next body after split =>
      cases scanned
      have whole : '"' :: (body ++ '"' :: rest) = '"' :: body ++ ['"'] ++ rest := by simp
      rw [splitString_eq split]
      exact whole
    · cases scanned
  · split at scanned
    next body after split =>
      cases scanned
      have whole : '@' :: '@' :: '@' :: (body ++ '@' :: '@' :: '@' :: rest) =
        '@' :: '@' :: '@' :: body ++ ['@', '@', '@'] ++ rest := by simp
      rw [splitRaw_eq split]
      exact whole
    · cases scanned
  next c others _ _ =>
    split at scanned
    · cases scanned
      rw [written_ofWordText, String.toList_ofList, List.cons_append, List.takeWhile_append_dropWhile]
    · split at scanned
      next mark =>
        cases scanned
        rw [written_ofMark? mark]
        rfl
      · cases scanned

end Token

/-- The text is the tokens as they are written, with blanks and comments around them. -/
inductive IsLaidOut : List Char → List Token → Prop
  | nil : IsLaidOut [] []
  | blank {c : Char} {rest : List Char} {tokens : List Token} (layout : Token.isLayout c = true)
      (others : IsLaidOut rest tokens) : IsLaidOut (c :: rest) tokens
  | comment {rest : List Char} {tokens : List Token} (text : List Char) (oneLine : '\n' ∉ text)
      (others : IsLaidOut rest tokens) : IsLaidOut ('#' :: text ++ rest) tokens
  | token {rest : List Char} {tokens : List Token} (token : Token) (others : IsLaidOut rest tokens) :
      IsLaidOut (token.written ++ rest) (token :: tokens)

theorem notMem_takeWhile_line (text : List Char) : '\n' ∉ text.takeWhile (· != '\n') := fun member => by
  have other := List.all_eq_true.mp (List.all_takeWhile (p := (· != '\n'))) _ member
  simp at other

theorem Lexemes.isLaidOut_of_read (here : Nat) (text : List Char)
    (noFault : (Lexemes.read here text).fault = none) :
    IsLaidOut text ((Lexemes.read here text).lexemes.map Lexeme.token) := by
  fun_induction Lexemes.read here text with
  | case1 => exact .nil
  | case2 _ _ _ layout ih => exact .blank layout (ih noFault)
  | case3 here rest _ ih =>
    have whole := IsLaidOut.comment _ (notMem_takeWhile_line rest) (ih noFault)
    rwa [List.cons_append, List.takeWhile_append_dropWhile] at whole
  | case4 => cases noFault
  | case5 here c rest _ _ token others scanned stop after ih =>
    rw [Token.scan_eq scanned, List.map_cons]
    exact .token token (ih noFault)

/-- The value that a token is, where it is one. -/
def Token.value? : Token → Option FieldValue
  | .string body =>
    match unescape body with
    | .ok text => some (.quoted (String.ofList text))
    | .error _ => none
  | .raw body => some (.raw (String.ofList body))
  | _ => none

mutual

/-- The values of all fields of an item and of those inside it. -/
def Item.values : Item → List FieldValue
  | .field f => [f.value]
  | .block _ items => Item.listValues items

def Item.listValues : List Item → List FieldValue
  | [] => []
  | i :: items => i.values ++ Item.listValues items

end

def Block.values (b : Block) : List FieldValue := Item.listValues b.items

def Source.values (s : Source) : List FieldValue := s.blocks.flatMap Block.values

theorem Item.listValues_append (items items' : List Item) :
    Item.listValues (items ++ items') = Item.listValues items ++ Item.listValues items' := by
  induction items with
  | nil => rfl
  | cons i items ih => simp [listValues, ih]

/-- Between `a` and `b`, which are of one text, tokens are taken whose values are `values`. -/
def Ahead.Passes (a b : Ahead) (values : List FieldValue) : Prop :=
  b.index = a.index ∧
    ∃ taken : List Lexeme, a.lexemes = taken ++ b.lexemes ∧ taken.filterMap (fun l => l.token.value?) = values

namespace Ahead.Passes

variable {a b c : Ahead} {values values' : List FieldValue}

theorem refl (a : Ahead) : a.Passes a [] := ⟨rfl, [], rfl, rfl⟩

theorem trans (first : a.Passes b values) (later : b.Passes c values') : a.Passes c (values ++ values') := by
  obtain ⟨index, taken, split, rfl⟩ := first
  obtain ⟨index', taken', split', rfl⟩ := later
  exact ⟨index'.trans index, taken ++ taken', by rw [split, split', List.append_assoc], List.filterMap_append⟩

theorem skip {token : Token} (next : a.token? = some token) : a.Passes a.skip token.value?.toList := by
  obtain ⟨l, head, rfl⟩ := Option.map_eq_some_iff.mp next
  refine ⟨rfl, [l], (List.head?_eq_some_iff.mp head).elim fun rest split => ?_, ?_⟩
  · rw [Ahead.skip, split]
    rfl
  · rw [List.filterMap_cons, List.filterMap_nil]
    cases l.token.value? <;> rfl

theorem length_le (passes : a.Passes b values) : b.lexemes.length ≤ a.lexemes.length := by
  obtain ⟨_, taken, split, _⟩ := passes
  rw [split, List.length_append]
  exact Nat.le_add_left _ _

theorem length_lt {value : FieldValue} (passes : a.Passes b (value :: values)) :
    b.lexemes.length < a.lexemes.length := by
  obtain ⟨_, taken, split, same⟩ := passes
  cases taken with
  | nil => cases same
  | cons l taken =>
    rw [split, List.length_append, List.length_cons]
    omega

end Ahead.Passes

section

variable {a b : Ahead}

theorem readToken_passes {token : Token} {what : Expectation} {stop : Nat}
    (read : readToken token what a = .ok (stop, b)) : a.Passes b token.value?.toList := by
  obtain ⟨next, _, rfl⟩ := readToken_eq_ok_iff.mp read
  exact .skip next

theorem readIdentifier_passes {what : Expectation} {name : String}
    (read : readIdentifier what a = .ok (name, b)) : a.Passes b [] := by
  obtain ⟨next, rfl⟩ := readIdentifier_eq_ok_iff.mp read
  exact .skip next

theorem readAlias_passes {newName : Option String} (read : readAlias a = .ok (newName, b)) : a.Passes b [] := by
  unfold readAlias at read
  split at read
  next next =>
    obtain ⟨⟨name, c⟩, readName, done⟩ := bind_eq_ok.mp read
    cases done
    exact (Ahead.Passes.skip next).trans (readIdentifier_passes readName)
  · cases read
    exact .refl _

theorem ReadsEach.passes {α : Type} {mark : Token} {one : Ahead → Except SyntaxError (α × Ahead)}
    {loop : Nat → Ahead → Except SyntaxError (List α × Ahead)} (reads : ReadsEach mark one loop)
    (noValue : mark.value? = none) (each : ∀ {a b : Ahead} {x : α}, one a = .ok (x, b) → a.Passes b [])
    {fuel : Nat} {elements : List α} (read : loop fuel a = .ok (elements, b)) : a.Passes b [] := by
  induction fuel generalizing a elements with
  | zero =>
    rcases reads.cases read with ⟨_, rfl, rfl⟩ | ⟨_, _, _, _, none, _⟩
    · exact .refl _
    · cases none
  | succ fuel ih =>
    rcases reads.cases read with ⟨_, rfl, rfl⟩ | ⟨_, first, others, c, ⟨⟩, next, readFirst, readRest, rfl⟩
    · exact .refl _
    · have passes := Ahead.Passes.skip next
      rw [noValue] at passes
      exact passes.trans ((each readFirst).trans (ih readRest))

theorem readDotted_passes {segments : List String} (read : readDotted a = .ok (segments, b)) : a.Passes b [] := by
  obtain ⟨⟨first, c⟩, readFirst, rest⟩ := bind_eq_ok.mp read
  obtain ⟨⟨others, d⟩, readRest, done⟩ := bind_eq_ok.mp rest
  cases done
  exact (readIdentifier_passes readFirst).trans (readsEach_segments.passes rfl readIdentifier_passes readRest)

theorem readPath_passes {path : Path} (read : readPath a = .ok (path, b)) : a.Passes b [] := by
  obtain ⟨⟨first, c⟩, readFirst, rest⟩ := bind_eq_ok.mp read
  obtain ⟨⟨others, d⟩, readRest, done⟩ := bind_eq_ok.mp rest
  cases done
  exact (readIdentifier_passes readFirst).trans (readsEach_segments.passes rfl readIdentifier_passes readRest)

theorem readPaths_passes {paths : List Path} (read : readPaths a = .ok (paths, b)) : a.Passes b [] := by
  obtain ⟨⟨path, c⟩, readFirst, rest⟩ := bind_eq_ok.mp read
  obtain ⟨⟨others, d⟩, readRest, done⟩ := bind_eq_ok.mp rest
  cases done
  exact (readPath_passes readFirst).trans (readsEach_paths.passes rfl readPath_passes readRest)

theorem countDots_passes (a : Ahead) : a.Passes { a with lexemes := (countDots a.lexemes).2 } [] := by
  refine ⟨rfl, a.lexemes.takeWhile fun l => l.token == .dot, List.takeWhile_append_dropWhile.symm, ?_⟩
  refine List.filterMap_eq_nil_iff.mpr fun l member => ?_
  have dot := List.all_eq_true.mp (List.all_takeWhile (p := fun l : Lexeme => l.token == .dot)) l member
  rw [beq_iff_eq.mp dot]
  rfl

theorem readModuleName_passes {bare : Bool} {module : ModuleName}
    (read : readModuleName bare a = .ok (module, b)) : a.Passes b [] := by
  unfold readModuleName at read
  dsimp only at read
  split at read
  · obtain ⟨⟨segments, c⟩, readDotted, done⟩ := bind_eq_ok.mp read
    cases done
    exact (countDots_passes a).trans (readDotted_passes readDotted)
  · split at read
    · cases read
    · cases read
      exact countDots_passes a

theorem readImportedName_passes {name : ImportedName} (read : readImportedName a = .ok (name, b)) :
    a.Passes b [] := by
  obtain ⟨⟨first, c⟩, readFirst, rest⟩ := bind_eq_ok.mp read
  obtain ⟨⟨newName, d⟩, readRest, done⟩ := bind_eq_ok.mp rest
  cases done
  exact (readIdentifier_passes readFirst).trans (readAlias_passes readRest)

theorem readImportForm_passes {form : ImportForm} (read : readImportForm a = .ok (form, b)) : a.Passes b [] := by
  unfold readImportForm at read
  split at read
  next next =>
    cases read
    exact .skip next
  · obtain ⟨⟨name, c⟩, readFirst, rest⟩ := bind_eq_ok.mp read
    obtain ⟨⟨others, d⟩, readRest, done⟩ := bind_eq_ok.mp rest
    cases done
    exact (readImportedName_passes readFirst).trans (readsEach_names.passes rfl readImportedName_passes readRest)

/-- An import starts behind its first word. -/
theorem readImport_passes {i : Import} (read : readImport a = .ok (i, b)) : a.skip.Passes b [] := by
  rcases readImport_cases read with ⟨_, _, _, c, readModule, readNew, _⟩ |
    ⟨_, _, _, _, c, d, readModule, readWord, readForm, _⟩
  · exact (readModuleName_passes readModule).trans (readAlias_passes readNew)
  · exact (readModuleName_passes readModule).trans
      ((readToken_passes readWord).trans (readImportForm_passes readForm))

/-- The value of a field is the next token, where that is one. -/
theorem readFieldValue_eq_ok_iff {name : String} {value : FieldValue} : readFieldValue name a = .ok (value, b) ↔
    (∃ token, a.token? = some token ∧ token.value? = some value) ∧ b = a.skip := by
  unfold readFieldValue
  constructor
  · intro read
    split at read
    next body next =>
      split at read
      next text unescaped =>
        cases read
        exact ⟨⟨_, next, by rw [Token.value?, unescaped]⟩, rfl⟩
      · cases read
    next body next =>
      cases read
      exact ⟨⟨_, next, rfl⟩, rfl⟩
    · cases read
  · rintro ⟨⟨token, next, isValue⟩, rfl⟩
    rw [next]
    unfold Token.value? at isValue
    split at isValue
    next body =>
      split at isValue
      next unescaped =>
        cases isValue
        dsimp only
        rw [unescaped]
      · cases isValue
    · cases isValue
      rfl
    · cases isValue

theorem readFieldValue_passes {name : String} {value : FieldValue}
    (read : readFieldValue name a = .ok (value, b)) : a.Passes b [value] := by
  obtain ⟨⟨token, next, isValue⟩, rfl⟩ := readFieldValue_eq_ok_iff.mp read
  have passes := Ahead.Passes.skip next
  rwa [isValue] at passes

theorem readField_passes {field : Field} (read : readField a = .ok (field, b)) :
    a.Passes b [field.value] := by
  obtain ⟨⟨name, c⟩, readName, rest⟩ := bind_eq_ok.mp read
  obtain ⟨⟨_, d⟩, readEquals, rest⟩ := bind_eq_ok.mp rest
  obtain ⟨⟨value, e⟩, readValue, done⟩ := bind_eq_ok.mp rest
  cases done
  exact (readIdentifier_passes readName).trans
    ((readToken_passes readEquals).trans (readFieldValue_passes readValue))

theorem readClause_passes {word : String} {clauses result : Clauses}
    (read : readClause word clauses a = .ok (result, b)) : a.Passes b [] := by
  unfold readClause at read
  split at read
  case h_5 =>
    cases read
    exact .refl _
  all_goals
    obtain ⟨⟨names, c⟩, readNames, done⟩ := bind_eq_ok.mp read
    cases done
    exact readPaths_passes readNames

theorem value?_of_clauseOf {token : Token} {word : String} {kind : NodeKind}
    (opens : clauseOf token = some (word, kind)) : token.value? = none := by
  cases token <;> cases opens <;> rfl

theorem readClauses_passes {kind : NodeKind} {fuel : Nat} {seen : List String} {clauses result : Clauses}
    (read : readClauses kind fuel seen clauses a = .ok (result, b)) : a.Passes b [] := by
  induction fuel generalizing seen clauses a with
  | zero =>
    cases read
    exact .refl _
  | succ fuel ih =>
    unfold readClauses at read
    split at read
    · cases read
      exact .refl _
    next word owner opens =>
      obtain ⟨token, next, opens⟩ := Option.bind_eq_some_iff.mp opens
      have passes := Ahead.Passes.skip next
      rw [value?_of_clauseOf opens] at passes
      split at read
      · cases read
      · split at read
        · cases read
        · obtain ⟨⟨more, c⟩, readFirst, rest⟩ := bind_eq_ok.mp read
          exact passes.trans ((readClause_passes readFirst).trans (ih rest))

/-- A header starts behind the word that opens the block. -/
theorem readHeader_passes {kind : NodeKind} {header : Header}
    (read : readHeader kind a = .ok (header, b)) : a.skip.Passes b [] := by
  obtain ⟨⟨name, c⟩, readName, rest⟩ := bind_eq_ok.mp read
  obtain ⟨⟨clauses, d⟩, readAll, rest⟩ := bind_eq_ok.mp rest
  obtain ⟨⟨_, e⟩, readBrace, done⟩ := bind_eq_ok.mp rest
  cases done
  exact (readIdentifier_passes readName).trans
    ((readClauses_passes readAll).trans (readToken_passes readBrace))

theorem readItems_passes {kind : NodeKind} {name : String} {fuel : Nat} {before items : List Item} {stop : Nat}
    (read : readItems kind name fuel before a = .ok ((items, stop), b)) :
    ∃ values, Item.listValues items = Item.listValues before.reverse ++ values ∧ a.Passes b values := by
  induction fuel generalizing kind name before items stop a b with
  | zero => cases read
  | succ fuel ih =>
    rcases readItems_cases read with ⟨next, rfl, _, rfl⟩ | ⟨_, field, c, _, readFirst, _, rest⟩ |
      ⟨inner, header, others, _, c, d, next, _, readFirst, readInner, _, rest⟩
    · exact ⟨[], (List.append_nil _).symm, .skip next⟩
    · obtain ⟨values, same, passes⟩ := ih rest
      refine ⟨field.value :: values, ?_, (readField_passes readFirst).trans passes⟩
      rw [same, List.reverse_cons, Item.listValues_append]
      simp [Item.listValues, Item.values]
    · obtain ⟨innerValues, sameInner, passesInner⟩ := ih readInner
      obtain ⟨values, same, passes⟩ := ih rest
      refine ⟨innerValues ++ values, ?_, (Ahead.Passes.skip next).trans
        ((readHeader_passes readFirst).trans (passesInner.trans passes))⟩
      rw [same, List.reverse_cons, Item.listValues_append]
      simp [Item.listValues, Item.values, sameInner]

/-- A block takes the values of its fields. -/
theorem readBlock_passes {kind : NodeKind} {block : Block} (read : readBlock kind a = .ok (block, b)) :
    a.skip.Passes b block.values := by
  obtain ⟨⟨header, c⟩, readFirst, rest⟩ := bind_eq_ok.mp read
  obtain ⟨⟨⟨items, stop⟩, d⟩, readInner, done⟩ := bind_eq_ok.mp rest
  cases done
  obtain ⟨values, same, passes⟩ := readItems_passes readInner
  rw [Block.values, same]
  exact (readHeader_passes readFirst).trans passes

theorem Ahead.length_skip {token : Token} (next : a.token? = some token) :
    a.skip.lexemes.length < a.lexemes.length := by
  obtain ⟨l, head, _⟩ := Option.map_eq_some_iff.mp next
  obtain ⟨rest, split⟩ := List.head?_eq_some_iff.mp head
  rw [skip, split]
  exact Nat.lt_succ_self _

/-- All that is ahead is read, if there is fuel for it. -/
theorem readDeclarations_values {fuel : Nat} {bound : List String} {a : Ahead} {s : Source}
    (enough : a.lexemes.length < fuel) (read : readDeclarations fuel bound a = .ok s) :
    a.lexemes.filterMap (fun l => l.token.value?) = s.values := by
  induction fuel generalizing bound a s with
  | zero => exact absurd enough (Nat.not_lt_zero _)
  | succ fuel ih =>
    have step : ∀ {token : Token} {b : Ahead} {values : List FieldValue} {bound' : List String} {rest : Source},
        a.token? = some token → token.value? = none → a.skip.Passes b values →
        readDeclarations fuel bound' b = .ok rest →
        a.lexemes.filterMap (fun l => l.token.value?) = values ++ rest.values := by
      intro token b values bound' rest next noValue passes readRest
      have fewer := Nat.lt_of_le_of_lt passes.length_le (Ahead.length_skip next)
      have first := Ahead.Passes.skip next
      rw [noValue] at first
      obtain ⟨_, taken, split, same⟩ := first.trans passes
      rw [split, List.filterMap_append, same, ih (by omega) readRest]
      rfl
    rcases readDeclarations_cases read with ⟨none, rfl⟩ |
      ⟨i, b, bound', rest, next | next, readFirst, _, readRest, rfl⟩ |
      ⟨kind, block, b, bound', rest, next, _, readFirst, _, readRest, rfl⟩
    · rw [List.head?_eq_none_iff.mp (Option.map_eq_none_iff.mp none)]
      rfl
    · have whole := step next rfl (readImport_passes readFirst) readRest
      exact whole
    · have whole := step next rfl (readImport_passes readFirst) readRest
      exact whole
    · have whole := step next rfl (readBlock_passes readFirst) readRest
      exact whole

end

/-- The tokens of a text. -/
def tokensOf (text : String) : List Token := (Lexemes.ofText text).lexemes.map Lexeme.token

/-- A source has the values that stand in its text, in the order in which they stand there: strings
without their escapes, raw blocks as they are. -/
theorem Source.values_eq {text : String} {s : Source} (parsed : Source.parse text = .ok s) :
    IsLaidOut text.toList (tokensOf text) ∧ s.values = (tokensOf text).filterMap Token.value? := by
  unfold Source.parse at parsed
  dsimp only at parsed
  split at parsed
  · cases parsed
  next noFault =>
    refine ⟨Lexemes.isLaidOut_of_read 0 text.toList noFault, ?_⟩
    rw [← readDeclarations_values (Nat.lt_succ_self _) parsed, tokensOf, List.filterMap_map]
    rfl

end Deductions
