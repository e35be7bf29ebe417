import Deductions.Proofs.Source.Grammar

namespace Deductions

namespace Spells

variable {rest : List Char} {tokens : List Token}

theorem space (spells : Spells rest tokens) : Spells (' ' :: rest) tokens := layout rfl spells

theorem line (spells : Spells rest tokens) : Spells ('\n' :: rest) tokens := layout rfl spells

theorem indentation (depth : Nat) (spells : Spells rest tokens) :
    Spells ((Deductions.indentation depth).toList ++ rest) tokens := by
  rw [Deductions.indentation, String.toList_ofList]
  induction 4 * depth with
  | zero => exact spells
  | succ n ih => exact space ih

theorem word {word : String} (identifier : isIdentifier word = true) (stop : Token.EndsWord rest)
    (spells : Spells rest tokens) :
    Spells (word.toList ++ rest) (Token.ofWordText word :: tokens) := by
  obtain ⟨c, letters, text, start, _⟩ := Token.isIdentifier_eq_cons identifier
  refine scan ?_ (Token.scan_word identifier stop) spells
  intro d head
  rw [text] at head
  cases head
  obtain ⟨-, -, noComment, noLayout, -⟩ := Token.isWordStart_cases start
  exact ⟨noLayout, noComment⟩

theorem name {name : String} (isName : IsName name) (stop : Token.EndsWord rest)
    (spells : Spells rest tokens) : Spells (name.toList ++ rest) (.identifier name :: tokens) := by
  have spelled := word isName.1 stop spells
  rwa [Token.ofWordText_of_not_reserved isName.2] at spelled

theorem keyword (kind : NodeKind) (stop : Token.EndsWord rest) (spells : Spells rest tokens) :
    Spells (kind.keyword.toList ++ rest) (.block kind :: tokens) := by
  have identifier : isIdentifier kind.keyword = true := by cases kind <;> decide
  have spelled := word identifier stop spells
  rwa [Token.ofWordText_keyword] at spelled

theorem mark {c : Char} {token : Token} (isMark : Token.ofMark? c = some token)
    (spells : Spells rest tokens) : Spells (c :: rest) (token :: tokens) := by
  have cases : c = '\x7b' ∨ c = '\x7d' ∨ c = '=' ∨ c = ',' ∨ c = '.' ∨ c = '*' := by
    unfold Token.ofMark? at isMark
    grind
  refine scan ?_ ?_ spells
  · intro d head
    cases head
    rcases cases with rfl | rfl | rfl | rfl | rfl | rfl <;> decide
  · rcases cases with rfl | rfl | rfl | rfl | rfl | rfl <;> cases isMark <;> rfl

end Spells

theorem splitString_escapeQuoted (c : Char) (rest : List Char) :
    Token.splitString (escapeQuoted c ++ rest) =
      (Token.splitString rest).map fun parts => (escapeQuoted c ++ parts.1, parts.2) := by
  unfold escapeQuoted
  split
  · rfl
  next quote =>
    split
    · rfl
    next slash =>
      split
      · rfl
      · split
        · rfl
        · rw [List.cons_append, List.nil_append, Token.splitString, if_neg slash]
          · rfl
          · exact quote
          · exact fun _ _ same => absurd same slash

theorem splitString_flatMap (text rest : List Char) :
    Token.splitString (text.flatMap escapeQuoted ++ '"' :: rest) =
      some (text.flatMap escapeQuoted, rest) := by
  induction text with
  | nil => rfl
  | cons c text ih =>
    rw [List.flatMap_cons, List.append_assoc, splitString_escapeQuoted, ih]
    rfl

theorem FieldValue.spells {value : FieldValue} (wellFormed : value.IsWellFormed) {rest : List Char}
    {tokens : List Token} (spells : Spells rest tokens) :
    Spells (value.written.toList ++ rest) (value.token :: tokens) := by
  cases value with
  | quoted text =>
    have scanned : Token.scan ('"' :: (text.toList.flatMap escapeQuoted ++ '"' :: rest)) =
        .ok (.string (text.toList.flatMap escapeQuoted), rest) := by
      rw [Token.scan, splitString_flatMap]
    have spelled := Spells.scan (by simp [Token.isLayout]) scanned spells
    rw [FieldValue.written, String.toList_ofList]
    simpa [FieldValue.token] using spelled
  | raw text =>
    have scanned : Token.scan ('@' :: '@' :: '@' :: (text.toList ++ '@' :: '@' :: '@' :: rest)) =
        .ok (.raw text.toList, rest) := by
      rw [Token.scan, Token.splitRaw_append wellFormed]
    have spelled := Spells.scan (by simp [Token.isLayout]) scanned spells
    rw [FieldValue.written]
    simpa [FieldValue.token] using spelled

/-- Whether the text, in front of what ends a word, spells the tokens. -/
def Renders (text : String) (group : List Token) : Prop :=
  ∀ rest tokens, Token.EndsWord rest → Spells rest tokens →
    Spells (text.toList ++ rest) (group ++ tokens)

/-- Whether the text ends a word and spells the token. -/
def Separates (text : String) (mark : Token) : Prop :=
  ∀ rest tokens, Spells rest tokens → Token.EndsWord (text.toList ++ rest) ∧
    Spells (text.toList ++ rest) (mark :: tokens)

theorem separates_dot : Separates "." .dot :=
  fun _ _ spells => ⟨Token.endsWord_cons rfl, .mark rfl spells⟩

theorem separates_comma : Separates ", " .comma :=
  fun _ _ spells => ⟨Token.endsWord_cons rfl, .mark rfl (.space spells)⟩

theorem separated_cons_cons (mark : Token) (first second : List Token) (rest : List (List Token)) :
    separated mark (first :: second :: rest) = first ++ mark :: separated mark (second :: rest) := by
  simp [separated]

theorem renders_intercalate {α : Type} {separator : String} {mark : Token}
    (between : Separates separator mark) {write : α → String} {group : α → List Token} {l : List α}
    (each : ∀ a ∈ l, Renders (write a) (group a)) :
    Renders (separator.intercalate (l.map write)) (separated mark (l.map group)) := by
  intro rest tokens stop spells
  induction l with
  | nil => simpa [separated] using spells
  | cons a l ih =>
    obtain ⟨first, each⟩ := List.forall_mem_cons.mp each
    cases l with
    | nil => simpa [separated] using first rest tokens stop spells
    | cons b l =>
      obtain ⟨ends, spelled⟩ := between _ _ (ih each)
      have spelled := first _ _ ends spelled
      rw [List.map_cons, List.map_cons, List.map_cons, List.map_cons, String.intercalate_cons_cons,
        separated_cons_cons, String.toList_append, String.toList_append]
      simpa only [List.append_assoc, List.cons_append, List.map_cons] using spelled

theorem renders_name {name : String} (isName : IsName name) : Renders name [.identifier name] :=
  fun _ _ stop spells => .name isName stop spells

theorem renders_dotted {segments : List String} (names : ∀ s ∈ segments, IsName s) :
    Renders (".".intercalate segments) (dottedTokens segments) := by
  have each : ∀ s ∈ segments, Renders (id s) [.identifier s] :=
    fun s member => renders_name (names s member)
  have rendered := renders_intercalate separates_dot each
  rwa [List.map_id] at rendered

theorem Path.renders {path : Path} (wellFormed : path.IsWellFormed) : Renders path.text path.tokens :=
  renders_dotted wellFormed

theorem renders_paths {paths : List Path} (wellFormed : ∀ p ∈ paths, p.IsWellFormed) :
    Renders (", ".intercalate (paths.map Path.text)) (pathsTokens paths) :=
  renders_intercalate separates_comma fun p member => Path.renders (wellFormed p member)

theorem ModuleName.renders {module : ModuleName} (wellFormed : module.IsWellFormed) :
    Renders module.text module.tokens := by
  intro rest tokens stop spells
  have spelled := renders_dotted wellFormed rest tokens stop spells
  rw [ModuleName.text, ModuleName.tokens, String.toList_append, String.toList_ofList,
    List.append_assoc, List.append_assoc]
  induction module.dots with
  | zero => exact spelled
  | succ dots ih => exact .mark rfl ih

theorem renders_empty : Renders "" [] := fun _ _ _ spells => spells

/-- Whether the text is empty or begins with a blank. -/
def IsSetOff (text : String) : Prop := ∀ c ∈ text.toList.head?, c = ' '

theorem isSetOff_space (text : String) : IsSetOff (" " ++ text) := by
  intro c head
  rw [String.toList_append] at head
  cases head
  rfl

theorem Renders.append {text text' : String} {group group' : List Token}
    (renders : Renders text group) (setOff : IsSetOff text') (renders' : Renders text' group') :
    Renders (text ++ text') (group ++ group') := by
  intro rest tokens stop spells
  have ends : Token.EndsWord (text'.toList ++ rest) := by
    intro c head
    rw [List.head?_append, Option.mem_def, Option.or_eq_some_iff] at head
    rcases head with head | ⟨-, head⟩
    · rw [setOff c head]
      rfl
    · exact stop c head
  rw [String.toList_append, List.append_assoc, List.append_assoc]
  exact renders _ _ ends (renders' _ _ stop spells)

theorem renders_word {word : String} (identifier : isIdentifier word = true) :
    Renders word [Token.ofWordText word] :=
  fun _ _ stop spells => .word identifier stop spells

theorem renders_keyword (kind : NodeKind) : Renders kind.keyword [.block kind] :=
  fun _ _ stop spells => .keyword kind stop spells

theorem Renders.space {text : String} {group : List Token} (renders : Renders text group) :
    Renders (" " ++ text) group := by
  intro rest tokens stop spells
  rw [String.toList_append]
  exact .space (renders rest tokens stop spells)

theorem Renders.then {text text' : String} {group group' : List Token} (renders : Renders text group)
    (renders' : Renders text' group') : Renders (text ++ (" " ++ text')) (group ++ group') :=
  renders.append (isSetOff_space text') renders'.space

theorem renders_alias {newName : String} (isName : IsName newName) :
    Renders ("as" ++ (" " ++ newName)) (aliasTokens (some newName)) := by
  have word : Renders "as" [.asWord] := renders_word (by decide)
  exact word.then (renders_name isName)

theorem ImportedName.renders {name : ImportedName} (wellFormed : name.IsWellFormed) :
    Renders name.written name.tokens := by
  obtain ⟨name, newName⟩ := name
  obtain ⟨isName, isNewName⟩ := wellFormed
  cases newName with
  | none => exact renders_name isName
  | some newName =>
    have text : name ++ " as " ++ newName = name ++ (" " ++ ("as" ++ (" " ++ newName))) :=
      String.toList_inj.mp (by simp)
    have rendered := (renders_name isName).then (renders_alias (isNewName newName rfl))
    rw [← text] at rendered
    exact rendered

/-- Whether the text spells the tokens, whatever follows. -/
def RendersWhole (text : String) (group : List Token) : Prop :=
  ∀ rest tokens, Spells rest tokens → Spells (text.toList ++ rest) (group ++ tokens)

theorem Renders.line {text : String} {group : List Token} (renders : Renders text group) :
    RendersWhole (text ++ "\n") group := by
  intro rest tokens spells
  rw [String.toList_append, List.append_assoc]
  exact renders _ tokens (Token.endsWord_cons rfl) (.line spells)

theorem RendersWhole.append {text text' : String} {group group' : List Token}
    (renders : RendersWhole text group) (renders' : RendersWhole text' group') :
    RendersWhole (text ++ text') (group ++ group') := by
  intro rest tokens spells
  rw [String.toList_append, List.append_assoc, List.append_assoc]
  exact renders _ _ (renders' _ _ spells)

/-- The same characters render the same tokens, however they are put together. -/
theorem RendersWhole.congr {text text' : String} {group group' : List Token}
    (renders : RendersWhole text group) (characters : text'.toList = text.toList)
    (same : group' = group) : RendersWhole text' group' := by
  rw [String.toList_inj.mp characters, same]
  exact renders

theorem Import.renders {i : Import} (wellFormed : i.IsWellFormed) :
    RendersWhole i.written i.tokens := by
  obtain ⟨module, form, span⟩ := i
  obtain ⟨moduleWell, formWell⟩ := wellFormed
  have importWord : Renders "import" [.importWord] := renders_word (by decide)
  have fromWord : Renders "from" [.fromWord] := renders_word (by decide)
  have name := ModuleName.renders moduleWell
  match form, formWell with
  | .whole none, _ =>
    exact (importWord.then name).line.congr (by simp [Import.written])
      (by simp [Import.tokens, ImportForm.tokens, ImportForm.word, aliasTokens])
  | .whole (some newName), formWell =>
    have newName := renders_alias (formWell.2 newName rfl)
    exact ((importWord.then name).then newName).line.congr (by simp [Import.written]) rfl
  | .everything, _ =>
    have star : Renders "*" [.star] := fun _ _ _ spells => .mark rfl spells
    exact ((fromWord.then name).then (importWord.then star)).line.congr (by simp [Import.written])
      rfl
  | .names list, formWell =>
    have names := renders_intercalate separates_comma fun n member =>
      ImportedName.renders (formWell.2.2 n member)
    exact ((fromWord.then name).then (importWord.then names)).line.congr (by simp [Import.written])
      rfl

theorem renders_clause {word : String} {token : Token} (spelled : Renders word [token])
    {paths : List Path} (wellFormed : ∀ p ∈ paths, p.IsWellFormed) :
    IsSetOff (writtenClause word paths) ∧
      Renders (writtenClause word paths) (clauseTokens token paths) := by
  unfold writtenClause clauseTokens
  split
  · exact ⟨by simp [IsSetOff], renders_empty⟩
  · rw [String.append_assoc, String.append_assoc]
    exact ⟨isSetOff_space _, (spelled.then (renders_paths wellFormed)).space⟩

theorem renders_ofWord : Renders "of" [.ofWord] := renders_word (by decide)

theorem renders_onWord : Renders "on" [.onWord] := renders_word (by decide)

theorem renders_versusWord : Renders "versus" [.versusWord] := renders_word (by decide)

theorem renders_contraWord : Renders "contra" [.contraWord] := renders_word (by decide)

theorem renders_wologWord : Renders "wolog" [.wologWord] := renders_word (by decide)

theorem Clauses.renders {kind : NodeKind} {clauses : Clauses}
    (wellFormed : clauses.IsWellFormed kind) {text : String} {group : List Token}
    (before : Renders text group) :
    Renders (text ++ clauses.written) (group ++ clauses.tokens) := by
  obtain ⟨-, -, -, -, -, paths⟩ := wellFormed
  simp only [List.mem_append, or_imp, forall_and] at paths
  obtain ⟨⟨⟨ofWell, onWell⟩, versusWell⟩, contraWell⟩ := paths
  have of := renders_clause renders_ofWord ofWell
  have on := renders_clause renders_onWord onWell
  have versus := renders_clause renders_versusWord versusWell
  have contra := renders_clause renders_contraWord contraWell
  have wolog : IsSetOff (if clauses.wolog then " wolog" else "") ∧
      Renders (if clauses.wolog then " wolog" else "")
        (if clauses.wolog then [.wologWord] else []) := by
    split
    · exact ⟨isSetOff_space "wolog", renders_wologWord.space⟩
    · exact ⟨by simp [IsSetOff], renders_empty⟩
  have rendered := ((((before.append of.1 of.2).append on.1 on.2).append versus.1 versus.2).append
    contra.1 contra.2).append wolog.1 wolog.2
  simpa only [Clauses.written, Clauses.tokens, String.append_assoc, List.append_assoc] using rendered

theorem RendersWhole.line : RendersWhole "\n" [] := fun _ _ spells => .line spells

theorem RendersWhole.empty : RendersWhole "" [] := fun _ _ spells => spells

theorem RendersWhole.indentation (depth : Nat) : RendersWhole (indentation depth) [] :=
  fun _ _ spells => .indentation depth spells

theorem Field.renders {field : Field} (wellFormed : field.IsWellFormed) (depth : Nat) :
    RendersWhole (indentation depth ++ field.name ++ " = " ++ field.value.written ++ "\n")
      field.tokens := by
  obtain ⟨isName, value⟩ := wellFormed
  have assigned : RendersWhole (" = " ++ field.value.written ++ "\n") [.equals, field.value.token] := by
    intro rest tokens spells
    have spelled := FieldValue.spells value spells.line
    simpa using (Spells.mark rfl spelled.space).space
  intro rest tokens spells
  have stop : Token.EndsWord ((" = " ++ field.value.written ++ "\n").toList ++ rest) := by
    simpa using Token.endsWord_cons (c := ' ') rfl
  have spelled := renders_name isName _ _ stop (assigned rest tokens spells)
  simpa [Field.tokens, String.append_assoc] using spelled.indentation depth

theorem Header.renders {header : Header} (wellFormed : header.IsWellFormed) (depth : Nat) :
    RendersWhole (header.written depth ++ " \x7b") header.tokens := by
  obtain ⟨isName, clauses⟩ := wellFormed
  have opened : RendersWhole " \x7b" [.openBrace] := fun _ _ spells => (Spells.mark rfl spells).space
  have named := (renders_keyword header.kind).then (renders_name isName)
  have whole := Clauses.renders clauses named
  intro rest tokens spells
  have stop : Token.EndsWord (" \x7b".toList ++ rest) := Token.endsWord_cons rfl
  have spelled := whole _ _ stop (opened rest tokens spells)
  simpa [Header.written, Header.tokens, String.append_assoc] using spelled.indentation depth

theorem rendersWhole_close : RendersWhole "\x7d\n" [.closeBrace] :=
  fun _ _ spells => .mark rfl spells.line

theorem Item.renders_block {header : Header} {items : List Item} (wellFormed : header.IsWellFormed)
    (depth : Nat)
    (inside : RendersWhole (Item.writtenList (depth + 1) items) (Item.listTokens items)) :
    RendersWhole ((Item.block header items).written depth) (Item.block header items).tokens := by
  have opened := Header.renders wellFormed depth
  cases items with
  | nil =>
    exact (opened.append rendersWhole_close).congr (by simp [Item.written])
      (by simp [Item.tokens, Item.listTokens])
  | cons first rest =>
    have closed := (RendersWhole.indentation depth).append rendersWhole_close
    exact (((opened.append .line).append inside).append closed).congr
      (by simp [Item.written, Item.writtenList]) (by simp [Item.tokens])

mutual

theorem Item.renders {outer : NodeKind} (depth : Nat) :
    ∀ {i : Item}, i.IsWellFormed outer → RendersWhole (i.written depth) i.tokens
  | .field _, wellFormed => by
    rw [Item.written, Item.tokens]
    exact Field.renders wellFormed depth
  | .block _ _, ⟨_, header, _, items⟩ =>
    Item.renders_block header depth (Item.listRenders (depth + 1) items)

theorem Item.listRenders {outer : NodeKind} (depth : Nat) :
    ∀ {items : List Item}, Item.AreWellFormed outer items →
      RendersWhole (Item.writtenList depth items) (Item.listTokens items)
  | [], _ => .empty
  | _ :: _, ⟨first, rest⟩ => (Item.renders depth first).append (Item.listRenders depth rest)

end

theorem Block.renders {block : Block} (wellFormed : block.IsWellFormed) :
    RendersWhole block.written block.tokens :=
  Item.renders_block wellFormed.header 0 (Item.listRenders 1 wellFormed.items)

theorem rendersWhole_flatMap {α : Type} {write : α → String} {group : α → List Token} {l : List α}
    (each : ∀ a ∈ l, RendersWhole (write a) (group a)) :
    RendersWhole (String.join (l.map write)) (l.flatMap group) := by
  induction l with
  | nil => exact .empty
  | cons a l ih =>
    obtain ⟨first, each⟩ := List.forall_mem_cons.mp each
    exact (first.append (ih each)).congr (by simp) (by simp)

theorem rendersWhole_lines {α : Type} {write : α → String} {group : α → List Token} {l : List α}
    (each : ∀ a ∈ l, RendersWhole (write a) (group a)) :
    RendersWhole ("\n".intercalate (l.map write)) (l.flatMap group) := by
  induction l with
  | nil => exact .empty
  | cons a l ih =>
    obtain ⟨first, each⟩ := List.forall_mem_cons.mp each
    cases l with
    | nil => exact first.congr (by simp) (by simp)
    | cons b l =>
      exact ((first.append .line).append (ih each)).congr (by simp [String.intercalate_cons_cons])
        (by simp)

theorem Source.spells_text {s : Source} (wellFormed : s.IsWellFormed) :
    Spells s.text.toList s.tokens := by
  have imports := rendersWhole_flatMap fun i member => Import.renders (wellFormed.imports i member)
  have blocks := rendersWhole_lines fun b member => Block.renders (wellFormed.blocks b member)
  have gap : RendersWhole (if s.imports.isEmpty then "" else if s.blocks.isEmpty then "" else "\n")
      [] := by
    repeat' split
    · exact .empty
    · exact .empty
    · exact .line
  have whole : RendersWhole s.text s.tokens :=
    ((imports.append gap).append blocks).congr (by simp [Source.text]) (by simp [Source.tokens])
  simpa using whole [] [] .nil

end Deductions
