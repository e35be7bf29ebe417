import Deductions.Path
import Deductions.SortedMap

namespace Deductions

inductive Severity where
  | error
  | warning
deriving DecidableEq

def Severity.name : Severity → String
  | .error => "Error"
  | .warning => "Warning"

def Severity.label : Severity → String
  | .error => "ERROR"
  | .warning => "WARN"

/-- Who answers for a diagnostic. -/
inductive Origin where
  /-- The sources or the change log. -/
  | author
  /-- The data that was compiled from them. -/
  | internal
deriving DecidableEq

def Origin.name : Origin → String
  | .author => "Author"
  | .internal => "Internal"

inductive DiagnosticKind where
  | internalInvariant
  | illegalRetarget
  | unloggedDisappearance
  | loggedGhost
  | danglingReference
  | multipleExpansion
  | unusedAssertion
  | staleEntry
  | unusedEntry
  | invalidReplacement
  | versionNotIncreased
  | disallowedBreakingChange
  | undeliveredTarget
deriving DecidableEq

namespace DiagnosticKind

def severity : DiagnosticKind → Severity
  | .loggedGhost | .unusedAssertion | .staleEntry | .unusedEntry | .undeliveredTarget => .warning
  | _ => .error

def origin : DiagnosticKind → Origin
  | .internalInvariant => .internal
  | _ => .author

def name : DiagnosticKind → String
  | .internalInvariant => "InternalInvariant"
  | .illegalRetarget => "IllegalRetarget"
  | .unloggedDisappearance => "UnloggedDisappearance"
  | .loggedGhost => "LoggedGhost"
  | .danglingReference => "DanglingReference"
  | .multipleExpansion => "MultipleExpansion"
  | .unusedAssertion => "UnusedAssertion"
  | .staleEntry => "StaleChangeLogEntry"
  | .unusedEntry => "UnusedChangeLogEntry"
  | .invalidReplacement => "InvalidReplacement"
  | .versionNotIncreased => "VersionNotIncreased"
  | .disallowedBreakingChange => "DisallowedBreakingChange"
  | .undeliveredTarget => "UndeliveredTarget"

def label : DiagnosticKind → String
  | .internalInvariant => "internal-invariant"
  | .illegalRetarget => "illegal-retarget"
  | .unloggedDisappearance => "unlogged-disappearance"
  | .loggedGhost => "logged-ghost"
  | .danglingReference => "dangling-reference"
  | .multipleExpansion => "multiple-expansion"
  | .unusedAssertion => "unused-assertion"
  | .staleEntry => "stale-change-log-entry"
  | .unusedEntry => "unused-change-log-entry"
  | .invalidReplacement => "invalid-replacement"
  | .versionNotIncreased => "version-not-increased"
  | .disallowedBreakingChange => "disallowed-breaking-change"
  | .undeliveredTarget => "undelivered-target"

/-- The kinds in the order of their checks. -/
def all : List DiagnosticKind :=
  [.internalInvariant, .illegalRetarget, .unloggedDisappearance, .loggedGhost, .danglingReference,
    .multipleExpansion, .unusedAssertion, .staleEntry, .unusedEntry, .invalidReplacement,
    .versionNotIncreased, .disallowedBreakingChange, .undeliveredTarget]

def rank (kind : DiagnosticKind) : Nat := all.idxOf kind

theorem getElem?_rank (kind : DiagnosticKind) : all[kind.rank]? = some kind := by
  cases kind <;> decide

theorem rank_injective {a b : DiagnosticKind} (same : a.rank = b.rank) : a = b :=
  Option.some.inj (by rw [← getElem?_rank a, same, getElem?_rank b])

end DiagnosticKind

structure Diagnostic where
  kind : DiagnosticKind
  /-- The node that it is about, unless it is about the library. -/
  path : Option Path
  message : String
deriving DecidableEq

namespace Diagnostic

def isError (d : Diagnostic) : Bool := d.kind.severity == .error

def text (d : Diagnostic) : String :=
  s!"[{d.kind.severity.label}] {d.kind.label}" ++
    (match d.path with
      | some path => s!" {path}"
      | none => "") ++ s!": {d.message}" ++
    (if d.kind.origin = .internal then " (internal defect)" else "")

/-- By check, then by path, then by message; what is about the library comes first. -/
protected def compare : Diagnostic → Diagnostic → Ordering :=
  compareLex (compareOn fun d => d.kind.rank) <|
    compareLex (compareOn fun d => d.path.toList) (compareOn message)

instance : Ord Diagnostic := ⟨Diagnostic.compare⟩

instance : Std.TransOrd Diagnostic := by
  unfold Std.TransOrd
  change Std.TransCmp Diagnostic.compare
  unfold Diagnostic.compare
  infer_instance

instance : Std.LawfulEqOrd Diagnostic where
  eq_of_compare {a b} same := by
    change Diagnostic.compare a b = .eq at same
    simp only [Diagnostic.compare, compareLex_eq_eq, compareOn, Std.LawfulEqCmp.compare_eq_iff_eq]
      at same
    obtain ⟨kind, path, message⟩ := same
    have path : a.path = b.path := by
      cases pathA : a.path <;> cases pathB : b.path <;> simp_all
    have kind := DiagnosticKind.rank_injective kind
    cases a
    cases b
    simp_all

end Diagnostic

end Deductions
