import Deductions.ChangeLog.Toml
import Deductions.Proofs.Graph.Json
import Deductions.Proofs.Toml.Document

namespace Deductions

open Toml (Reads Document)

theorem Path.ofToml?_text {p : Path} (identifiers : p.HasIdentifiers) : ofToml? (.string p.text) = some p := by
  rw [ofToml?, Toml.string?, Option.bind_eq_bind, Option.bind_some, parse_text_eq identifiers]
  rfl

theorem Version.ofToml?_text (v : Version) : ofToml? (.string v.text) = some v := by
  rw [ofToml?, Toml.string?, Option.bind_eq_bind, Option.bind_some, parse_text_eq]
  rfl

namespace ChangeLogEntry

/-- The paths of the entry consist of identifiers. -/
structure HasIdentifiers (e : ChangeLogEntry) : Prop where
  path : e.path.HasIdentifiers
  replacement : ∀ p ∈ e.replacement, p.HasIdentifiers

instance (e : ChangeLogEntry) : Decidable e.HasIdentifiers :=
  decidable_of_iff (e.path.HasIdentifiers ∧ ∀ p ∈ e.replacement, p.HasIdentifiers)
    ⟨fun ⟨path, replacement⟩ => ⟨path, replacement⟩, fun ⟨path, replacement⟩ => ⟨path, replacement⟩⟩

/-- What the table of the entry binds. -/
def members (e : ChangeLogEntry) : Toml.Entries :=
  [("path", .string e.path.text), ("version", .string e.version.text), ("justification", .string e.justification)] ++
    match e.replacement with
    | some replacement => [("replacement", .string replacement.text)]
    | none => []

theorem record?_members (e : ChangeLogEntry) : Toml.record? layout (.table .headed e.members) =
    some [some (.string e.path.text), some (.string e.version.text), some (.string e.justification),
      e.replacement.map fun p => .string p.text] := by
  obtain ⟨_, _, _, _ | _⟩ := e <;> rfl

theorem ofToml?_members {e : ChangeLogEntry} (identifiers : e.HasIdentifiers) :
    ofToml? (.table .headed e.members) = some e := by
  have replacement : (e.replacement.map fun p => Toml.string p.text).mapM Path.ofToml? = some e.replacement := by
    cases given : e.replacement with
    | none => rfl
    | some p =>
      rw [Option.map_some, Option.mapM_some, Path.ofToml?_text (identifiers.replacement p given)]
      rfl
  simp [ofToml?, record?_members, Path.ofToml?_text identifiers.path, Version.ofToml?_text, Toml.string?, replacement]

theorem isJustified_iff {e : ChangeLogEntry} :
    e.isJustified = true ↔ ∃ c ∈ e.justification.toList, isBlank c = false := by
  rw [isJustified, Bool.not_eq_true', List.all_eq_false]
  simp only [Bool.not_eq_true]

/-- A line adds its key to the last table. -/
theorem reads_line (elems : List Toml.Entries) (last : Toml.Entries) {key : String} (bare : Toml.IsBare key)
    (new : last.lookup key = none) (value : String) :
    Reads (.ofTables "entry" (elems ++ [last])) (line key value)
      (.ofTables "entry" (elems ++ [last ++ [(key, .string value)]])) := by
  have isValue := Toml.isValue_quoted value.toList
  rw [String.ofList_toList] at isValue
  exact .binding bare isValue (Document.assign_ofTables "entry" elems last (.string value) new)

theorem reads_toml (elems : List Toml.Entries) (e : ChangeLogEntry) :
    Reads (.ofTables "entry" elems) e.toml (.ofTables "entry" (elems ++ [e.members])) := by
  have header := Reads.element (show Toml.IsBare "entry" by decide) (Document.enter_ofTables "entry" elems)
  have path := reads_line elems [] (show Toml.IsBare "path" by decide) rfl e.path.text
  rw [List.nil_append] at path
  have version := reads_line elems [("path", .string e.path.text)] (show Toml.IsBare "version" by decide) rfl
    e.version.text
  rw [List.singleton_append] at version
  have justification := reads_line elems [("path", .string e.path.text), ("version", .string e.version.text)]
    (show Toml.IsBare "justification" by decide) rfl e.justification
  rw [List.cons_append, List.singleton_append] at justification
  have required := ((header.trans path).trans version).trans justification
  have written : "[[entry]]\n".toList = '[' :: '[' :: "entry".toList ++ [']', ']', '\n'] := rfl
  unfold toml members
  rw [written]
  cases e.replacement with
  | none =>
    rw [List.append_nil, List.append_nil]
    exact required
  | some replacement =>
    have replacement := reads_line elems
      [("path", .string e.path.text), ("version", .string e.version.text), ("justification", .string e.justification)]
      (show Toml.IsBare "replacement" by decide) rfl replacement.text
    exact required.trans replacement

/-- The entries of a text are read one after the other. -/
theorem reads_intercalate (elems : List Toml.Entries) (entries : List ChangeLogEntry) :
    Reads (.ofTables "entry" elems) (['\n'].intercalate (entries.map toml))
      (.ofTables "entry" (elems ++ entries.map members)) := by
  induction entries generalizing elems with
  | nil =>
    rw [List.map_nil, List.map_nil, List.append_nil]
    exact .refl _
  | cons e entries ih =>
    have later := ih (elems ++ [e.members])
    rw [List.append_assoc, List.singleton_append, ← List.map_cons] at later
    cases entries with
    | nil =>
      rw [List.map_singleton, List.map_singleton, List.intercalate_singleton]
      exact reads_toml elems e
    | cons next entries =>
      rw [List.map_cons, List.map_cons, List.intercalate_cons_cons, ← List.map_cons]
      -- the empty line between the two entries
      exact ((reads_toml elems e).trans (.newline _)).trans later

end ChangeLogEntry

namespace ChangeLog

theorem ofToml?_tables {entries : List ChangeLogEntry} (identifiers : ∀ e ∈ entries, e.HasIdentifiers) :
    ofToml? (.table .headed [("entry", .tables (entries.map ChangeLogEntry.members))]) = some ⟨entries⟩ := by
  have asList : Toml.list? ChangeLogEntry.ofToml? (.tables (entries.map ChangeLogEntry.members)) = some entries := by
    rw [Toml.list?, Toml.elems?, List.map_map]
    exact Json.mapM_eq_some fun e member => ChangeLogEntry.ofToml?_members (identifiers e member)
  have recorded : Toml.record? layout (.table .headed [("entry", .tables (entries.map ChangeLogEntry.members))]) =
      some [some (.tables (entries.map ChangeLogEntry.members))] := rfl
  simp [ofToml?, recorded, asList]

/-- What is written is a document, of which the entries are those of the log. -/
theorem parse_toml_text {log : ChangeLog} (identifiers : ∀ e ∈ log.entries, e.HasIdentifiers) :
    (Toml.parse log.text.toList).bind ofToml? = some log := by
  obtain ⟨_ | ⟨e, entries⟩⟩ := log
  · have written : (text ⟨[]⟩).toList = "entry".toList ++ [' ', '=', ' '] ++ ['[', ']'] ++ ['\n'] := rfl
    have reads : Reads {} (text ⟨[]⟩).toList ⟨[("entry", .array [])], []⟩ := by
      rw [written]
      exact .binding (by decide) Toml.isValue_empty rfl
    rw [reads.parse_eq (by rw [written]; decide)]
    rfl
  · have written : (text ⟨e :: entries⟩).toList = ['\n'].intercalate ((e :: entries).map ChangeLogEntry.toml) :=
      String.toList_ofList
    have reads := ChangeLogEntry.reads_intercalate [] (e :: entries)
    rw [← written] at reads
    have unmarked : (text ⟨e :: entries⟩).toList.head? = some '[' := by
      rw [written]
      cases entries <;> rfl
    rw [reads.parse_eq (by rw [unmarked]; decide)]
    exact ofToml?_tables identifiers

/-- Whether the entries give reasons is asked of the log that was written. -/
theorem parse_text_eq_check {log : ChangeLog} (identifiers : ∀ e ∈ log.entries, e.HasIdentifiers) :
    parse log.text = log.check := by
  rw [parse, parse_toml_text identifiers]

section

variable {before after : List ChangeLogEntry} {e : ChangeLogEntry}

theorem check_eq_ok {log : ChangeLog} (justified : ∀ e ∈ log.entries, e.isJustified = true) :
    log.check = .ok log := by
  have none : log.entries.find? (fun e => !e.isJustified) = none :=
    List.find?_eq_none.mpr fun e member => by simp [justified e member]
  rw [check, none]

theorem check_eq_error (justified : ∀ e ∈ before, e.isJustified = true) (blank : e.isJustified = false) :
    check ⟨before ++ e :: after⟩ = .error (.unjustified e.path) := by
  have first : (before ++ e :: after).find? (fun e => !e.isJustified) = some e :=
    List.find?_eq_some_iff_append.mpr ⟨by simp [blank], before, after, rfl, fun e member => by simp [justified e member]⟩
  rw [check, first]

end

/-- A log is read back as it was written where every reason has a character that is not blank.
Otherwise the first entry with a blank one is reported. -/
theorem parse_text_of_hasIdentifiers (log : ChangeLog) (identifiers : ∀ e ∈ log.entries, e.HasIdentifiers) :
    ((∀ e ∈ log.entries, ∃ c ∈ e.justification.toList, isBlank c = false) → parse log.text = .ok log) ∧
      ∀ before e after, log.entries = before ++ e :: after →
        (∀ e' ∈ before, ∃ c ∈ e'.justification.toList, isBlank c = false) →
        (∀ c ∈ e.justification.toList, isBlank c = true) →
        parse log.text = .error (.unjustified e.path) := by
  rw [parse_text_eq_check identifiers]
  constructor
  · intro justified
    exact check_eq_ok fun e member => ChangeLogEntry.isJustified_iff.mpr (justified e member)
  · intro before e after entries justified blank
    obtain ⟨_⟩ := log
    subst entries
    refine check_eq_error (fun e member => ChangeLogEntry.isJustified_iff.mpr (justified e member)) ?_
    rw [Bool.eq_false_iff, ne_eq, ChangeLogEntry.isJustified_iff]
    rintro ⟨c, member, visible⟩
    exact Bool.eq_false_iff.mp visible (blank c member)

/-- An entry for a node that has moved from the module `a` to the module `b`. -/
def moved (name justification : String) : ChangeLogEntry where
  path := (Path.single "a").child name
  version := .plain 2 0 0
  justification
  replacement := (Path.single "b").child name

/-- Reasons that take every form of a string, with quotes and line breaks at their ends. -/
def quotingReasons : List String :=
  ["superseded", "C:\\old", "\"\"it\x27s", "\n\x27\x27\x27\"\"\"\\", "\x27\x27\\\n\"\"\"", "\x7f\r\"\x27"]

theorem parse_text_of_hasIdentifiers_moved :
    let justified := quotingReasons.map (moved "P")
    let refused := justified ++ moved "Q" " \t\n" :: [moved "R" ""]
    quotingReasons.map (fun s => Toml.formOf s.toList) =
        [.basic, .literal, .basicLines, .basicLines, .literalLines, .basic] ∧
      (∀ e ∈ refused, e.HasIdentifiers) ∧ parse (text ⟨justified⟩) = .ok ⟨justified⟩ ∧
      parse (text ⟨refused⟩) = .error (.unjustified ((Path.single "a").child "Q")) := by
  let justified := quotingReasons.map (moved "P")
  let refused := justified ++ moved "Q" " \t\n" :: [moved "R" ""]
  have areJustified : ∀ e ∈ justified, e.isJustified = true := by decide
  have reasons := fun e member => ChangeLogEntry.isJustified_iff.mp (areJustified e member)
  have blank := List.all_eq_true.mp (show (moved "Q" " \t\n").justification.toList.all isBlank = true by decide)
  have identifiers : ∀ e ∈ refused, e.HasIdentifiers := by decide
  exact ⟨by decide, identifiers, (parse_text_of_hasIdentifiers ⟨justified⟩ (by decide)).1 reasons,
    (parse_text_of_hasIdentifiers ⟨refused⟩ identifiers).2 justified _ [moved "R" ""] rfl reasons blank⟩

end ChangeLog

end Deductions
