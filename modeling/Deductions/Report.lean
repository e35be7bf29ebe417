import Deductions.Diagnostic
import Deductions.Edge
import Deductions.Version.Bump

namespace Deductions

structure Report where
  library : String
  version : Version
  /-- The version before, unless this is the first one. -/
  previous : Option Version
  diagnostics : SortedSet Diagnostic
  /-- The references to nodes that are there no more. -/
  ghosts : List Edge
  change : Option ChangeKind
deriving DecidableEq

namespace Report

def errors (r : Report) : List Diagnostic :=
  (SortedSet.toList r.diagnostics).filter Diagnostic.isError

def warnings (r : Report) : List Diagnostic :=
  (SortedSet.toList r.diagnostics).filter fun d => !d.isError

/-- Whether the version can be published. -/
def passed (r : Report) : Bool := r.errors.isEmpty

def title (r : Report) : String :=
  match r.previous with
  | some previous => s!"=== Validation Report ({r.library} {previous} -> {r.version}) ==="
  | none => s!"=== Validation Report ({r.library} {r.version}, first version) ==="

def summary (r : Report) : String :=
  let result := if r.passed then "PASS" else "FAIL"
  let change := match r.change with
    | some change => change.text
    | none => "n/a"
  s!"Result: {result} | Errors: {r.errors.length} | Warnings: {r.warnings.length} | " ++
    s!"Ghost edges: {r.ghosts.length} | Change: {change}"

def diagnosticLines (r : Report) : List String :=
  match SortedSet.toList r.diagnostics with
  | [] => ["No diagnostics."]
  | diagnostics => "--- Diagnostics ---" :: diagnostics.map Diagnostic.text

def ghostLines (r : Report) : List String :=
  match r.ghosts with
  | [] => []
  | ghosts => "--- Ghost edges ---" :: ghosts.map Edge.text

def text (r : Report) : String :=
  String.join
    ((r.title :: r.summary :: r.diagnosticLines ++ r.ghostLines).map fun line => line ++ "\n")

end Report

end Deductions
