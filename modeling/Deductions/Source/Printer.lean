import Deductions.Source

namespace Deductions

/-- A character of a text as it is written between quotes. -/
def escapeQuoted (c : Char) : List Char :=
  if c = '"' then ['\\', '"']
  else if c = '\\' then ['\\', '\\']
  else if c = '\n' then ['\\', 'n']
  else if c = '\t' then ['\\', 't']
  else [c]

def FieldValue.written : FieldValue → String
  | .quoted text => String.ofList ('"' :: text.toList.flatMap escapeQuoted ++ ['"'])
  | .raw text => "@@@" ++ text ++ "@@@"

def ImportedName.written (n : ImportedName) : String :=
  match n.newName with
  | some newName => n.name ++ " as " ++ newName
  | none => n.name

def Import.written (i : Import) : String :=
  match i.form with
  | .whole none => "import " ++ i.module.text ++ "\n"
  | .whole (some newName) => "import " ++ i.module.text ++ " as " ++ newName ++ "\n"
  | .everything => "from " ++ i.module.text ++ " import *\n"
  | .names list =>
    "from " ++ i.module.text ++ " import " ++ ", ".intercalate (list.map ImportedName.written) ++
      "\n"

/-- A clause with its list, nothing where the list is empty. -/
def writtenClause (word : String) (paths : List Path) : String :=
  if paths.isEmpty then "" else " " ++ word ++ " " ++ ", ".intercalate (paths.map Path.text)

def Clauses.written (c : Clauses) : String :=
  writtenClause "of" c.of ++ writtenClause "on" c.on ++ writtenClause "versus" c.versus ++
    writtenClause "contra" c.contra ++ (if c.wolog then " wolog" else "")

def indentation (depth : Nat) : String := String.ofList (List.replicate (4 * depth) ' ')

def Header.written (depth : Nat) (h : Header) : String :=
  indentation depth ++ h.kind.keyword ++ " " ++ h.name ++ h.clauses.written

mutual

def Item.written (depth : Nat) : Item → String
  | .field f => indentation depth ++ f.name ++ " = " ++ f.value.written ++ "\n"
  | .block header [] => header.written depth ++ " \x7b\x7d\n"
  | .block header (first :: rest) =>
    header.written depth ++ " \x7b\n" ++ first.written (depth + 1) ++
      Item.writtenList (depth + 1) rest ++ indentation depth ++ "\x7d\n"

def Item.writtenList (depth : Nat) : List Item → String
  | [] => ""
  | i :: items => i.written depth ++ Item.writtenList depth items

end

def Block.written (b : Block) : String := (Item.block b.header b.items).written 0

/-- The text of a source. -/
def Source.text (s : Source) : String :=
  String.join (s.imports.map Import.written) ++ (if s.imports.isEmpty then "" else
    if s.blocks.isEmpty then "" else "\n") ++ "\n".intercalate (s.blocks.map Block.written)

end Deductions
