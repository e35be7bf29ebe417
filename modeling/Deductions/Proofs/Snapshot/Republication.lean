import Deductions.Proofs.Retag.Batch
import Deductions.Proofs.Retag.Snapshot
import Deductions.Proofs.Snapshot.Integrity
import Deductions.Proofs.Dangling

namespace Deductions

open Validation

variable {f : Version → Version}

namespace Snapshot

variable {s : Snapshot}

/-- All that edges lead to is stored, at the version that they tell. -/
structure IsClosed (s : Snapshot) : Prop where
  integral : s.IsIntegral
  noGhost : ∀ e ∈ s.edges, e.isGhost = false
  stored : ∀ e ∈ s.edges, ∀ r ∈ e.endpoints, ∃ n, s.node? r.path = some n ∧ n.version = r.version

theorem IsIntegral.retag (integral : s.IsIntegral) (f : Version → Version) : (s.retag f).IsIntegral := by
  constructor
  case keyed => exact IsKeyed.retag integral.keyed f
  case owned =>
    intro path stored
    rw [contains_retag] at stored
    exact integral.owned path stored
  case stored =>
    intro path n found inner member
    rw [node?_retag, Option.map_eq_some_iff] at found
    obtain ⟨n, found, rfl⟩ := found
    rw [contains_retag]
    exact integral.stored path n found inner member
  case single =>
    rw [values_nodes_retag, List.flatMap_map]
    exact integral.single
  case sources =>
    intro e member
    obtain ⟨e, inside, rfl⟩ := List.mem_map.mp member
    rw [contains_retag, Edge.source_retag]
    exact integral.sources e inside

theorem IsClosed.retag (closed : s.IsClosed) (f : Version → Version) : (s.retag f).IsClosed := by
  refine ⟨closed.integral.retag f, fun e member => ?_, fun e member r atEnd => ?_⟩
  · obtain ⟨e, inside, rfl⟩ := List.mem_map.mp member
    rw [Edge.isGhost_retag]
    exact closed.noGhost e inside
  · obtain ⟨e, inside, rfl⟩ := List.mem_map.mp member
    rw [Edge.endpoints_retag] at atEnd
    obtain ⟨r, isEnd, rfl⟩ := List.mem_map.mp atEnd
    obtain ⟨n, found, same⟩ := closed.stored e inside r isEnd
    refine ⟨n.retag f, ?_, congrArg f same⟩
    rw [node?_retag, NodeRef.path_retag, found, Option.map_some]

theorem IsClosed.resolves (closed : s.IsClosed) {e : Edge} (member : e ∈ s.edges) {r : NodeRef}
    (atEnd : r ∈ e.endpoints) : s.resolves r = true := by
  obtain ⟨n, found, same⟩ := closed.stored e member r atEnd
  rw [Snapshot.resolves, found]
  exact beq_iff_eq.mpr same

theorem IsClosed.contains_of_expands (closed : s.IsClosed) {source target : Path}
    (expands : s.Expands source target) : s.contains target = true := by
  obtain ⟨e, member, _, t, atEnd, rfl⟩ := expands
  obtain ⟨n, found, _⟩ := closed.stored e (List.mem_filter.mp member).1 t (List.mem_cons_of_mem _ atEnd)
  exact Option.isSome_of_eq_some found

/-- Nothing is lost to other tags. -/
theorem IsClosed.lossesSince_retag (closed : s.IsClosed) : (s.retag f).lossesSince (some s) = {} := by
  have describe := (s.retag f).lossesSince_describe (some s)
  have keeps : ∀ source target, ¬ Removes (some s) (s.retag f) source target := by
    rintro source target ⟨before, isBefore, expands, _, noLonger⟩
    cases isBefore
    exact noLonger (expands_retag.mpr expands)
  have noRetarget : ((s.retag f).lossesSince (some s)).retargets = [] := by
    refine List.eq_nil_iff_forall_not_mem.mpr fun r member => ?_
    obtain ⟨target, removes⟩ := isRetargeted_iff.mp (describe.isRetargeted member)
    exact keeps _ _ removes
  have noTarget : ((s.retag f).lossesSince (some s)).targets = [] := by
    refine List.eq_nil_iff_forall_not_mem.mpr fun t member => ?_
    obtain ⟨before, isBefore, ⟨source, expands⟩, ⟨_, vanished⟩ | ⟨source', removes⟩⟩ := describe.lost t member
    · cases isBefore
      rw [contains_retag, closed.contains_of_expands expands] at vanished
      cases vanished
    · exact keeps _ _ removes
  have parts : ∀ losses : Losses, losses.retargets = [] → losses.targets = [] → losses = {} := by
    rintro ⟨retargets, targets⟩ rfl rfl
    rfl
  exact parts _ noRetarget noTarget

theorem IsClosed.referenceDiagnostics_eq (closed : s.IsClosed) (losses : Losses) (named : Path → Bool) :
    referenceDiagnostics losses named s = [] := by
  have noGhost : s.edges.filter (fun e => e.isGhost && e.targets.all fun t => tolerates losses named t.path) = [] := by
    refine List.filter_eq_nil_iff.mpr fun e member => ?_
    rw [closed.noGhost e member]
    exact Bool.false_ne_true
  have noEnd : s.edges.flatMap (danglingEnds losses named s) = [] := by
    refine List.flatMap_eq_nil_iff.mpr fun e member => ?_
    exact (danglingEnds_eq_nil_of_not_ghost (closed.noGhost e member)).mpr fun r => closed.resolves member
  rw [referenceDiagnostics, toleratedEdges, noGhost, noEnd]
  rfl

/-- The diagnostics on what the snapshot expands and narrates. -/
def ownDiagnostics (s : Snapshot) (options : ValidationOptions) : List Diagnostic :=
  multipleExpansions s ++
    (if options.warnUnusedAssertions then s.nodes.values.filterMap (unusedDiagnostic? s) else []) ++
    s.narrations.entries.flatMap fun (owner, steps) => undelivered s owner steps

theorem ownDiagnostics_retag (options : ValidationOptions) :
    (s.retag f).ownDiagnostics options = s.ownDiagnostics options := by
  have unused : (s.retag f).nodes.values.filterMap (unusedDiagnostic? (s.retag f)) =
      s.nodes.values.filterMap (unusedDiagnostic? s) := by
    rw [values_nodes_retag, List.filterMap_map]
    exact List.filterMap_congr fun n _ => unusedDiagnostic?_retag n
  have notDelivered : ((s.retag f).narrations.entries.flatMap fun (owner, steps) =>
      undelivered (s.retag f) owner steps) =
        s.narrations.entries.flatMap fun (owner, steps) => undelivered s owner steps := by
    have entries : (s.retag f).narrations.entries = s.narrations.entries.map fun e =>
        (e.1, e.2.map (ResolvedStep.retag f)) := rfl
    rw [entries, List.flatMap_map]
    simp only [undelivered_retag]
  rw [ownDiagnostics, ownDiagnostics, multipleExpansions_retag, unused, notDelivered]

/-- In a closed snapshot that follows the previous one, without losses, there is nothing else to find. -/
theorem IsClosed.findings_eq (closed : s.IsClosed) {previous : Option Snapshot} (options : ValidationOptions)
    (increases : ∀ before ∈ previous, before.version < s.version) :
    findings s previous {} options {} = s.ownDiagnostics options := by
  have integrity : integrity s = [] := by
    rw [Validation.integrity, integrityIssues_eq_nil_iff.mpr closed.integral, List.map_nil]
  have version : versionDiagnostics options s.version (!({} : Losses).isEmpty) previous = [] := by
    cases previous with
    | none => rfl
    | some before =>
      have later : ¬ s.version ≤ before.version := fun notAfter => le_iff_not_lt.mp notAfter (increases before rfl)
      rw [versionDiagnostics, policyDiagnostics, if_neg later]
      simp [Losses.isEmpty]
  have loss : ∀ named, lossDiagnostics {} named = [] := fun _ => rfl
  have stale : ChangeLog.staleEntries {} s.version = [] := rfl
  have entries : ChangeLog.entriesFor {} s.version = [] := rfl
  rw [Validation.findings_eq, integrity, version, loss, closed.referenceDiagnostics_eq, stale, entries, ownDiagnostics]
  simp only [List.map_nil, List.flatMap_nil, List.append_nil, List.nil_append]

/-- A closed snapshot is found to be just what it was under later tags. -/
theorem IsClosed.validate_retag (closed : s.IsClosed) (later : s.version < f s.version)
    (options : ValidationOptions) : validate (s.retag f) (some s) {} options =
      { validate s none {} options with
        version := f s.version
        previous := some s.version
        ghosts := []
        change := some .none } := by
  have losses : (s.retag f).lossesSince (some s) = {} := closed.lossesSince_retag
  have findings' : findings (s.retag f) (some s) {} options {} = s.ownDiagnostics options := by
    rw [(closed.retag f).findings_eq options fun before isBefore => ?_, ownDiagnostics_retag]
    cases isBefore
    exact later
  have findings : findings s none {} options (s.lossesSince none) = s.ownDiagnostics options :=
    closed.findings_eq options fun _ isBefore => nomatch isBefore
  have ghosts : (s.retag f).edges.filter Edge.isGhost = [] := by
    refine List.filter_eq_nil_iff.mpr fun e member => ?_
    rw [(closed.retag f).noGhost e member]
    exact Bool.false_ne_true
  have unchanged : s.change (s.retag f) false = .none := IsKeyed.change_retag closed.integral.keyed
  rw [validate, validate, losses, findings', findings, ghosts]
  simp only [Option.map_some]
  rw [show (!({} : Losses).isEmpty) = false from rfl, unchanged]
  rfl

end Snapshot

section

variable {sources : List ModuleSource} {imports : ImportTable} {name : String} {version : Version} {S : Snapshot}
  (assembled : assemble name version (compileBatch sources {} imports none).compiled = .ok S)
include assembled

theorem isClosed_of_assemble : S.IsClosed := by
  have noGhost : ∀ e ∈ S.edges, e.isGhost = false := by
    intro e member
    obtain ⟨m, s, c, before, _, n, _, isLink⟩ := exists_link_of_assemble assembled member
    cases isLink with
    | link noGhost => exact noGhost
    | ghost loses =>
      -- without a previous version there is nothing to lose
      obtain ⟨scope, written, _, lost⟩ := loses
      rw [Resolution.lookup] at lost
      split at lost <;> cases lost
  refine ⟨isIntegral_of_assemble assembled, noGhost, fun e member r atEnd => ?_⟩
  refine (end_of_assemble assembled member (noGhost e member) atEnd).resolve_right ?_
  rintro ⟨⟨n, ⟨id, g, held, _⟩, _⟩, _⟩
  cases held

end

/-- The version in place of another. -/
def replacing (version version' : Version) : Version → Version :=
  fun v => if v = version then version' else v

theorem replacing_self (version version' : Version) : replacing version version' version = version' := if_pos rfl

/-- Sources that compile against nothing but themselves can be published again without a change. At a later
version they compile to the snapshot with the later version in place of the first, in which nothing is lost,
and about which the validation reports the same. -/
theorem validate_republished {texts : List (Path × String)} {imports : ImportTable} {version version' : Version}
    {name : String} {S : Snapshot} (distinct : (texts.map Prod.fst).Nodup) (unpinned : imports.IsUnpinned)
    (later : version < version')
    (succeeded : (compileBatch (sourcesAt version texts) {} imports none).succeeded = true)
    (assembled : assemble name version (compileBatch (sourcesAt version texts) {} imports none).compiled = .ok S) :
    (compileBatch (sourcesAt version' texts) {} imports (some S)).succeeded = true ∧
      ∃ S', assemble name version' (compileBatch (sourcesAt version' texts) {} imports (some S)).compiled = .ok S' ∧
        S' = S.retag (replacing version version') ∧
        ∀ options, (validate S' (some S) {} options).change = some .none ∧
          (validate S' (some S) {} options).ghosts = [] ∧
          (validate S' (some S) {} options).diagnostics = (validate S none {} options).diagnostics := by
  have replaced := replacing_self version version'
  have again := succeeded_retag distinct unpinned succeeded (replacing version version') (some S)
  have compiled := compiled_retag distinct unpinned succeeded (replacing version version') (some S)
  rw [replaced] at again compiled
  have collected : assemble name version' (compileBatch (sourcesAt version' texts) {} imports (some S)).compiled =
      .ok (S.retag (replacing version version')) := by
    have retagged := assemble_retag (f := replacing version version') name version
      (compileBatch (sourcesAt version texts) {} imports none).compiled
    rw [replaced, assembled] at retagged
    rw [compiled, retagged]
    rfl
  have increases : S.version < replacing version version' S.version := by
    rw [version_of_assemble assembled, replaced]
    exact later
  refine ⟨again, _, collected, rfl, fun options => ?_⟩
  rw [(isClosed_of_assemble assembled).validate_retag increases options]
  exact ⟨rfl, rfl, rfl⟩

/-- A theorem with two assertions, and a proof of the first, which is imported from outside. -/
def publishedTexts : List (Path × String) :=
  [(.single "b", "deduc T \x7b asrt X \x7b en = \"x\" \x7d asrt Y \x7b en = \"y\" \x7d \x7d"),
    (.single "a", "from b.T import Y deduc D of X \x7b narration = \"From Y get X.\" \x7d")]

def publishedImports : ImportTable := ImportTable.insert {} "X" ⟨((Path.single "b").child "T").child "X", none⟩

def publishedBatch : BatchResult := compileBatch (sourcesAt (.plain 1 0 0) publishedTexts) {} publishedImports none

theorem validate_republished_publishedTexts : (publishedTexts.map Prod.fst).Nodup ∧ publishedImports.IsUnpinned ∧
    Version.plain 1 0 0 < .plain 1 0 1 ∧ publishedBatch.succeeded = true ∧ ∃ S S',
      assemble "lib" (.plain 1 0 0) publishedBatch.compiled = .ok S ∧
      assemble "lib" (.plain 1 0 1) (compileBatch (sourcesAt (.plain 1 0 1) publishedTexts) {} publishedImports
        (some S)).compiled = .ok S' ∧
      ∀ options, (validate S' (some S) {} options).change = some .none ∧
        (validate S' (some S) {} options).ghosts = [] ∧
        (validate S' (some S) {} options).diagnostics = (validate S none {} options).diagnostics := by
  have distinct : (publishedTexts.map Prod.fst).Nodup := by decide
  have unpinned : publishedImports.IsUnpinned := ImportTable.IsUnpinned.empty.insert _ _
  have later : Version.plain 1 0 0 < .plain 1 0 1 := by decide
  have compiles : (publishedBatch.succeeded &&
      (assemble "lib" (.plain 1 0 0) publishedBatch.compiled).toOption.isSome) = true := by decide +kernel
  rw [Bool.and_eq_true, Option.isSome_iff_exists] at compiles
  obtain ⟨succeeded, S, collected⟩ := compiles
  have assembled := Batch.toOption_eq_some_iff.mp collected
  obtain ⟨_, S', again, _, unchanged⟩ := validate_republished distinct unpinned later succeeded assembled
  exact ⟨distinct, unpinned, later, succeeded, S, S', assembled, again, unchanged⟩

end Deductions
