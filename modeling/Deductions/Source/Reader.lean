import Deductions.Source
import Deductions.Source.SyntaxError

namespace Deductions

/-- What is left to read: the tokens ahead, the place after the last character of the text, and its lines. -/
structure Ahead where
  lexemes : List Lexeme
  stop : Nat
  index : LineIndex

namespace Ahead

def token? (a : Ahead) : Option Token := a.lexemes.head?.map Lexeme.token

/-- The place of the next token, or the end of the text. -/
def here (a : Ahead) : Nat := (a.lexemes.head?.map Lexeme.start).getD a.stop

/-- Where the next token ends. -/
def hereStop (a : Ahead) : Nat := (a.lexemes.head?.map Lexeme.stop).getD a.stop

def skip (a : Ahead) : Ahead := { a with lexemes := a.lexemes.tail }

def fail {α : Type} (a : Ahead) (fault : SyntaxFault) : Except SyntaxError α :=
  .error (.atOffset a.index a.here fault)

def unexpected {α : Type} (a : Ahead) (what : Expectation) : Except SyntaxError α :=
  a.fail (.expected what a.token?)

end Ahead

/-- Takes the given token and returns the place where it ends. -/
def readToken (token : Token) (what : Expectation) (a : Ahead) : Except SyntaxError (Nat × Ahead) :=
  if a.token? = some token then .ok (a.hereStop, a.skip) else a.unexpected what

def readIdentifier (what : Expectation) (a : Ahead) : Except SyntaxError (String × Ahead) :=
  match a.token? with
  | some (.identifier name) => .ok (name, a.skip)
  | _ => a.unexpected what

/-- The name behind an optional `as`. -/
def readAlias (a : Ahead) : Except SyntaxError (Option String × Ahead) :=
  if a.token? = some .asWord then do
    let (name, a) ← readIdentifier .aliasName a.skip
    return (some name, a)
  else .ok (none, a)

/-- Further segments of a dotted name. The fuel bounds their number. -/
def readSegments : Nat → Ahead → Except SyntaxError (List String × Ahead)
  | 0, a => .ok ([], a)
  | fuel + 1, a =>
    if a.token? = some .dot then do
      let (segment, a) ← readIdentifier .identifierAfterDot a.skip
      let (segments, a) ← readSegments fuel a
      return (segment :: segments, a)
    else .ok ([], a)

def readDotted (a : Ahead) : Except SyntaxError (List String × Ahead) := do
  let (first, a) ← readIdentifier .identifier a
  let (segments, a) ← readSegments a.lexemes.length a
  return (first :: segments, a)

def readPath (a : Ahead) : Except SyntaxError (Path × Ahead) := do
  let (first, a) ← readIdentifier .identifier a
  let (segments, a) ← readSegments a.lexemes.length a
  return (⟨first :: segments, by simp⟩, a)

/-- Further paths of a list. The fuel bounds their number. -/
def readMorePaths : Nat → Ahead → Except SyntaxError (List Path × Ahead)
  | 0, a => .ok ([], a)
  | fuel + 1, a =>
    if a.token? = some .comma then do
      let (path, a) ← readPath a.skip
      let (paths, a) ← readMorePaths fuel a
      return (path :: paths, a)
    else .ok ([], a)

def readPaths (a : Ahead) : Except SyntaxError (List Path × Ahead) := do
  let (path, a) ← readPath a
  let (paths, a) ← readMorePaths a.lexemes.length a
  return (path :: paths, a)

/-- The number of dots ahead and what follows them. -/
def countDots (lexemes : List Lexeme) : Nat × List Lexeme :=
  ((lexemes.takeWhile fun l => l.token == .dot).length,
    lexemes.dropWhile fun l => l.token == .dot)

/-- The name of a module; where `bare` is set, dots alone will do. -/
def readModuleName (bare : Bool) (a : Ahead) : Except SyntaxError (ModuleName × Ahead) :=
  let (dots, lexemes) := countDots a.lexemes
  let a := { a with lexemes := lexemes }
  match a.token? with
  | some (.identifier _) => do
    let (segments, a) ← readDotted a
    return (⟨dots, segments⟩, a)
  | _ => if dots = 0 || !bare then a.unexpected .modulePath else .ok (⟨dots, []⟩, a)

def readImportedName (a : Ahead) : Except SyntaxError (ImportedName × Ahead) := do
  let (name, a) ← readIdentifier .importedName a
  let (newName, a) ← readAlias a
  return (⟨name, newName⟩, a)

/-- Further imported names. The fuel bounds their number. -/
def readMoreNames : Nat → Ahead → Except SyntaxError (List ImportedName × Ahead)
  | 0, a => .ok ([], a)
  | fuel + 1, a =>
    if a.token? = some .comma then do
      let (name, a) ← readImportedName a.skip
      let (names, a) ← readMoreNames fuel a
      return (name :: names, a)
    else .ok ([], a)

def readImportForm (a : Ahead) : Except SyntaxError (ImportForm × Ahead) :=
  if a.token? = some .star then .ok (.everything, a.skip)
  else do
    let (name, a) ← readImportedName a
    let (names, a) ← readMoreNames a.lexemes.length a
    return (.names (name :: names), a)

/-- Where the last token ends that was taken between `before` and `after`. -/
def lastStop (before after : Ahead) : Nat :=
  let taken := before.lexemes.take (before.lexemes.length - after.lexemes.length)
  (taken.getLast?.map Lexeme.stop).getD before.here

/-- An import, whose first word is ahead. -/
def readImport (a : Ahead) : Except SyntaxError (Import × Ahead) := do
  if a.token? = some .importWord then
    let (module, b) ← readModuleName false a.skip
    let (newName, b) ← readAlias b
    return (⟨module, .whole newName, a.index.span a.here (lastStop a b)⟩, b)
  else
    let (module, b) ← readModuleName true a.skip
    let (_, b) ← readToken .importWord .importWord b
    let (form, b) ← readImportForm b
    return (⟨module, form, a.index.span a.here (lastStop a b)⟩, b)

/-- Replaces the escapes of a string. -/
def unescape : List Char → Except SyntaxFault (List Char)
  | [] => .ok []
  | ['\\'] => .error .danglingBackslash
  | '\\' :: '"' :: rest => do return '"' :: (← unescape rest)
  | '\\' :: '\\' :: rest => do return '\\' :: (← unescape rest)
  | '\\' :: 'n' :: rest => do return '\n' :: (← unescape rest)
  | '\\' :: 't' :: rest => do return '\t' :: (← unescape rest)
  | '\\' :: c :: _ => .error (.invalidEscape c)
  | c :: rest => do return c :: (← unescape rest)

def readFieldValue (name : String) (a : Ahead) : Except SyntaxError (FieldValue × Ahead) :=
  match a.token? with
  | some (.string body) =>
    match unescape body with
    | .ok text => .ok (.quoted (String.ofList text), a.skip)
    | .error fault => a.fail fault
  | some (.raw body) => .ok (.raw (String.ofList body), a.skip)
  | _ => a.fail (.fieldValue name)

def readField (a : Ahead) : Except SyntaxError (Field × Ahead) := do
  let (name, b) ← readIdentifier .fieldName a
  let (_, b) ← readToken .equals (.equals name) b
  let stop := b.hereStop
  let (value, b) ← readFieldValue name b
  return (⟨name, value, a.index.span a.here stop⟩, b)

/-- The clause that a token opens: its word and the kind of block that it belongs to. -/
def clauseOf : Token → Option (String × NodeKind)
  | .ofWord => some ("of", .deduction)
  | .onWord => some ("on", .note)
  | .versusWord => some ("versus", .supposition)
  | .contraWord => some ("contra", .falsum)
  | .wologWord => some ("wolog", .supposition)
  | _ => none

/-- The rest of a clause behind its word, put into `clauses`. -/
def readClause (word : String) (clauses : Clauses) (a : Ahead) :
    Except SyntaxError (Clauses × Ahead) :=
  match word with
  | "of" => do
    let (paths, a) ← readPaths a
    return ({ clauses with of := paths }, a)
  | "on" => do
    let (paths, a) ← readPaths a
    return ({ clauses with on := paths }, a)
  | "versus" => do
    let (paths, a) ← readPaths a
    return ({ clauses with versus := paths }, a)
  | "contra" => do
    let (paths, a) ← readPaths a
    return ({ clauses with contra := paths }, a)
  | _ => .ok ({ clauses with wolog := true }, a)

/-- The clauses of a block of the given kind. `seen` are the words of those already read, and the
fuel bounds the number of those to come. -/
def readClauses (kind : NodeKind) :
    Nat → List String → Clauses → Ahead → Except SyntaxError (Clauses × Ahead)
  | 0, _, clauses, a => .ok (clauses, a)
  | fuel + 1, seen, clauses, a =>
    match a.token?.bind clauseOf with
    | none => .ok (clauses, a)
    | some (word, owner) =>
      if kind ≠ owner then a.fail (.clauseNotAllowed word kind)
      else if seen.contains word then a.fail (.duplicateClause word)
      else do
        let (clauses, a) ← readClause word clauses a.skip
        readClauses kind fuel (word :: seen) clauses a

/-- A block up to its opening brace, with the span still open. -/
def readHeader (kind : NodeKind) (a : Ahead) : Except SyntaxError (Header × Ahead) := do
  let (name, b) ← readIdentifier (.blockName kind) a.skip
  let (clauses, b) ← readClauses kind b.lexemes.length [] {} b
  let (_, b) ← readToken .openBrace (.openBrace kind name) b
  return (⟨kind, name, clauses, a.index.span a.here 0⟩, b)

def fieldNames (items : List Item) : List String := items.filterMap fun i => i.field?.map Field.name

def blockNames (items : List Item) : List String :=
  items.filterMap fun i => i.block?.map fun b => b.header.name

/-- What is expected inside a block of the given kind. -/
def bodyExpectation (kind : NodeKind) : Expectation :=
  if kind.isDeductive || kind = .existential then .fieldOrBlock else .fieldName

/-- The items of a block and the place where its closing brace ends. `before` are the items already
read, last first, and the fuel bounds the items to come with all those inside them. -/
def readItems (kind : NodeKind) (name : String) :
    Nat → List Item → Ahead → Except SyntaxError ((List Item × Nat) × Ahead)
  | 0, _, a => a.fail (.unclosed kind name)
  | fuel + 1, before, a =>
    match a.token? with
    | none => a.fail (.unclosed kind name)
    | some .closeBrace => .ok ((before.reverse, a.hereStop), a.skip)
    | some (.identifier _) => do
      let (field, b) ← readField a
      if (fieldNames before).contains field.name then
        a.fail (.duplicateField field.name name)
      else readItems kind name fuel (.field field :: before) b
    | some (.block inner) =>
      if !kind.mayContain inner then a.fail (.nesting kind inner)
      else do
        let (header, b) ← readHeader inner a
        let ((items, stop), b) ← readItems inner header.name fuel [] b
        if (blockNames before).contains header.name then
          a.fail (.duplicateDefinition header.name (some name))
        else
          let header := { header with span := a.index.span a.here stop }
          readItems kind name fuel (.block header items :: before) b
    | some _ => a.unexpected (bodyExpectation kind)

/-- A block, whose keyword is ahead. -/
def readBlock (kind : NodeKind) (a : Ahead) : Except SyntaxError (Block × Ahead) := do
  let (header, b) ← readHeader kind a
  let ((items, stop), b) ← readItems kind header.name (b.lexemes.length + 1) [] b
  return (⟨{ header with span := a.index.span a.here stop }, items⟩, b)

/-- The first of the names that is bound already, if there is one; else all that are bound then. -/
def bindNames : List String → List String → Except String (List String)
  | bound, [] => .ok bound
  | bound, name :: rest =>
    if bound.contains name then .error name else bindNames (name :: bound) rest

/-- The declarations of a module. `bound` are the names that those already read bind, and the fuel
bounds the declarations to come. -/
def readDeclarations : Nat → List String → Ahead → Except SyntaxError Source
  | 0, _, _ => .ok {}
  | fuel + 1, bound, a =>
    match a.token? with
    | none => .ok {}
    | some .importWord | some .fromWord => do
      let (i, b) ← readImport a
      match bindNames bound i.localNames with
      | .error name => a.fail (.duplicateDefinition name none)
      | .ok bound =>
        let rest ← readDeclarations fuel bound b
        return { rest with imports := i :: rest.imports }
    | some (.block kind) =>
      if kind = .deduction || kind = .note then do
        let (block, b) ← readBlock kind a
        match bindNames bound [block.header.name] with
        | .error name => a.fail (.duplicateDefinition name none)
        | .ok bound =>
          let rest ← readDeclarations fuel bound b
          return { rest with blocks := block :: rest.blocks }
      else a.fail (.outsideDeduction kind)
    | some (.identifier _) => a.fail .fieldOutsideBlock
    | some _ => a.unexpected .declaration

/-- Reads the source of a module. A text with a place where no token starts is refused for the first
such place, whatever stands before it. -/
def Source.parse (text : String) : Except SyntaxError Source :=
  let index := LineIndex.ofText text
  let read := Lexemes.ofText text
  match read.fault with
  | some fault => .error (.atOffset index read.stop (.token fault))
  | none => readDeclarations (read.lexemes.length + 1) [] ⟨read.lexemes, read.stop, index⟩

end Deductions
