import Deductions.Source.Token

namespace Deductions

/-- What a text could have gone on with. -/
inductive Expectation where
  | declaration
  | importWord
  | modulePath
  | importedName
  | aliasName
  | identifier
  | identifierAfterDot
  | blockName (kind : NodeKind)
  | openBrace (kind : NodeKind) (name : String)
  | equals (field : String)
  | fieldName
  | fieldOrBlock
deriving DecidableEq

def Expectation.text : Expectation → String
  | .declaration => "import or block declaration"
  | .importWord => "'import'"
  | .modulePath => "module path"
  | .importedName => "imported name"
  | .aliasName => "alias after 'as'"
  | .identifier => "identifier"
  | .identifierAfterDot => "identifier after '.'"
  | .blockName kind => s!"name after '{kind.keyword}'"
  | .openBrace kind name => s!"'\x7b' to open '{kind.keyword} {name}'"
  | .equals field => s!"'=' after field '{field}'"
  | .fieldName => "field"
  | .fieldOrBlock => "field or block"

inductive SyntaxFault where
  | token (fault : TokenFault)
  | expected (what : Expectation) (found : Option Token)
  | fieldOutsideBlock
  | outsideDeduction (kind : NodeKind)
  /-- A name defined twice, at top level or in the block `inside`. -/
  | duplicateDefinition (name : String) (inside : Option String)
  | duplicateField (name block : String)
  | clauseNotAllowed (clause : String) (kind : NodeKind)
  | duplicateClause (clause : String)
  | unclosed (kind : NodeKind) (name : String)
  | nesting (outer inner : NodeKind)
  | fieldValue (field : String)
  | invalidEscape (c : Char)
  | danglingBackslash
deriving DecidableEq

def nestingMessage (outer inner : NodeKind) : String :=
  if !outer.isDeductive && outer != .existential then
    s!"expected field: '{outer.keyword}' may not contain nested blocks"
  else if inner = .deduction then
    s!"'deduc' may only be declared at top level; use 'subdeduc' inside '{outer.keyword}'"
  else if inner = .note then "'anno' may only be declared at top level"
  else s!"'{inner.keyword}' may not be declared inside '{outer.keyword}'"

namespace SyntaxFault

def message : SyntaxFault → String
  | .token .unterminatedRaw => "unterminated raw block: expected closing '@@@'"
  | .token .unterminatedString => "unterminated string"
  | .token (.unexpected c) => s!"unexpected character '{c}'"
  | .expected what found =>
    "expected " ++ what.text ++ ", found " ++ (found.map Token.describe).getD "end of input"
  | .fieldOutsideBlock => "expected block, found field"
  | .outsideDeduction kind => s!"'{kind.keyword}' must be declared inside a deduction"
  | .duplicateDefinition name none => s!"duplicate definition of '{name}'"
  | .duplicateDefinition name (some block) => s!"duplicate definition of '{name}' in '{block}'"
  | .duplicateField name block => s!"duplicate field '{name}' in '{block}'"
  | .clauseNotAllowed clause kind => s!"'{clause}' clause not allowed on '{kind.keyword}'"
  | .duplicateClause clause => s!"duplicate '{clause}' clause"
  | .unclosed kind name =>
    s!"unclosed brace: expected '\x7d' to close '{kind.keyword} {name}'"
  | .nesting outer inner => nestingMessage outer inner
  | .fieldValue field => s!"expected string or '@@@' raw block for field '{field}'"
  | .invalidEscape c => s!"invalid escape '\\{c}' in string"
  | .danglingBackslash => "dangling '\\' in string"

end SyntaxFault

structure SyntaxError where
  line : UInt32
  column : UInt32
  fault : SyntaxFault
deriving DecidableEq

namespace SyntaxError

/-- The error at a place of the text with the lines of `index`. -/
def atOffset (index : LineIndex) (offset : Nat) (fault : SyntaxFault) : SyntaxError where
  line := (index.lineColumn offset).1
  column := (index.lineColumn offset).2
  fault := fault

/-- The message without the place. -/
def detail (e : SyntaxError) : String := e.fault.message

def message (e : SyntaxError) : String :=
  s!"syntax error at line {e.line.toNat}, column {e.column.toNat}: " ++ e.detail

end SyntaxError

end Deductions
