import Deductions.Proofs.LossReports
import Deductions.Proofs.Snapshot.Origin

namespace Deductions

namespace Snapshot

/-- The stored data fit together: nodes stand under their paths and in modules, what is inside a node is
stored and inside no other, and edges leave stored nodes. -/
structure IsIntegral (s : Snapshot) : Prop where
  keyed : ∀ path n, s.node? path = some n → n.path = path
  owned : ∀ path, s.contains path = true → s.owns path = true
  stored : ∀ path n, s.node? path = some n → ∀ inner ∈ n.children, s.contains inner = true
  single : (s.nodes.values.flatMap Node.children).Nodup
  sources : ∀ e ∈ s.edges, s.contains e.source.path = true

variable {s : Snapshot}

theorem childIssues_eq {key : Path} {parents : SortedMap Path Path} {children : List Path} :
    (s.childIssues key parents children).2 = children.foldl (fun m inner => m.insert inner key) parents := by
  induction children generalizing parents with
  | nil => rfl
  | cons inner rest ih => exact ih

theorem mem_keys_childIssues {key inner : Path} {parents : SortedMap Path Path} {children : List Path} :
    inner ∈ (s.childIssues key parents children).2.keys ↔ inner ∈ children ∨ inner ∈ parents.keys := by
  rw [childIssues_eq]
  induction children generalizing parents with
  | nil => simp
  | cons first rest ih =>
    rw [List.foldl_cons, ih, SortedMap.mem_keys_insert, List.mem_cons]
    exact or_left_comm.trans or_assoc.symm

theorem childIssues_eq_nil_iff {key : Path} {parents : SortedMap Path Path} {children : List Path} :
    (s.childIssues key parents children).1 = [] ↔
      (∀ inner ∈ children, s.contains inner = true) ∧ children.Nodup ∧
        ∀ inner ∈ children, inner ∉ parents.keys := by
  induction children generalizing parents with
  | nil => simp [childIssues]
  | cons first rest ih =>
    have missing : (if s.contains first then []
        else [(⟨first, s!"listed as a child of {key} but missing"⟩ : IntegrityIssue)]) = [] ↔
          s.contains first = true := by
      split <;> simp_all
    have unclaimed : first ∈ parents.keys ↔ (parents.find? first).isSome = true := SortedMap.contains_iff.symm
    rw [childIssues]
    dsimp only
    rw [List.append_eq_nil_iff, List.append_eq_nil_iff, ih, missing]
    simp only [List.forall_mem_cons, List.nodup_cons, SortedMap.mem_keys_insert, not_or, unclaimed]
    cases parents.find? first with
    | some other => simp
    | none =>
      constructor
      · rintro ⟨⟨storedFirst, _⟩, stored, distinct, fresh⟩
        exact ⟨⟨storedFirst, stored⟩, ⟨fun again => (fresh first again).1 rfl, distinct⟩, nofun,
          fun inner member => (fresh inner member).2⟩
      · rintro ⟨⟨storedFirst, stored⟩, ⟨once, distinct⟩, _, fresh⟩
        exact ⟨⟨storedFirst, rfl⟩, stored, distinct, fun inner member =>
          ⟨fun same => once (same ▸ member), fresh inner member⟩⟩

/-- The nodes that claim others are told apart by what they claim, along with those that did before. -/
theorem nodeIssues_eq_nil_iff {parents : SortedMap Path Path} {entries : List (Path × Node)} :
    s.nodeIssues parents entries = [] ↔
      (∀ e ∈ entries, e.1 = e.2.path ∧ s.owns e.1 = true ∧ ∀ inner ∈ e.2.children, s.contains inner = true) ∧
      (entries.flatMap fun e => e.2.children).Nodup ∧
      ∀ inner ∈ entries.flatMap fun e => e.2.children, inner ∉ parents.keys := by
  induction entries generalizing parents with
  | nil => simp [nodeIssues]
  | cons e rest ih =>
    obtain ⟨key, n⟩ := e
    have misplaced : (if key = n.path then []
        else [(⟨key, s!"stored under {key} but carries path {n.path}"⟩ : IntegrityIssue)]) = [] ↔
          key = n.path := by
      split <;> simp_all
    have outside : (if s.owns key then []
        else [(⟨key, "node lies outside every module of the snapshot"⟩ : IntegrityIssue)]) = [] ↔
          s.owns key = true := by
      split <;> simp_all
    rw [nodeIssues]
    dsimp only
    rw [List.append_eq_nil_iff, List.append_eq_nil_iff, List.append_eq_nil_iff, misplaced, outside,
      childIssues_eq_nil_iff, ih]
    simp only [List.forall_mem_cons, List.flatMap_cons, List.nodup_append, List.forall_mem_append,
      mem_keys_childIssues, not_or]
    constructor
    · rintro ⟨⟨⟨keyed, owned⟩, stored, distinct, fresh⟩, later, distinctLater, apart⟩
      exact ⟨⟨⟨keyed, owned, stored⟩, later⟩, ⟨distinct, distinctLater, fun inner member other inside same =>
        (apart other inside).1 (same ▸ member)⟩, fresh, fun inner inside => (apart inner inside).2⟩
    · rintro ⟨⟨⟨keyed, owned, stored⟩, later⟩, ⟨distinct, distinctLater, apart⟩, fresh, freshLater⟩
      exact ⟨⟨⟨keyed, owned⟩, stored, distinct, fresh⟩, later, distinctLater, fun inner inside =>
        ⟨fun member => apart inner member inner inside rfl, freshLater inner inside⟩⟩

theorem edgeIssues_eq_nil_iff : s.edgeIssues = [] ↔ ∀ e ∈ s.edges, s.contains e.source.path = true := by
  rw [edgeIssues, List.map_eq_nil_iff, List.filter_eq_nil_iff]
  simp only [Bool.not_eq_true', Bool.not_eq_false]

/-- The check finds nothing exactly when the stored data fit together. -/
theorem integrityIssues_eq_nil_iff : s.integrityIssues = [] ↔ s.IsIntegral := by
  have perm := List.mergeSort_perm (s.nodeIssues SortedMap.empty s.nodes.entries ++ s.edgeIssues)
    IntegrityIssue.le
  have unclaimed : ∀ inner : Path, inner ∉ (SortedMap.empty : SortedMap Path Path).keys := fun _ => nofun
  have children : (s.nodes.entries.flatMap fun e => e.2.children) = s.nodes.values.flatMap Node.children := by
    rw [SortedMap.values, List.flatMap_map]
  rw [integrityIssues, ← List.perm_nil, perm.congr_left, List.perm_nil, List.append_eq_nil_iff,
    nodeIssues_eq_nil_iff, edgeIssues_eq_nil_iff, children]
  constructor
  · rintro ⟨⟨sound, single, _⟩, sources⟩
    have entry : ∀ {path n}, s.node? path = some n → (path, n) ∈ s.nodes.entries :=
      SortedMap.find?_eq_some_iff.mp
    exact {
      keyed := fun path n found => (sound _ (entry found)).1.symm
      owned := fun path stored => by
        obtain ⟨n, found⟩ := Option.isSome_iff_exists.mp stored
        exact (sound _ (entry found)).2.1
      stored := fun path n found => (sound _ (entry found)).2.2
      single := single
      sources := sources }
  · intro integral
    refine ⟨⟨fun e member => ?_, integral.single, fun inner _ => unclaimed inner⟩, integral.sources⟩
    have found : s.node? e.1 = some e.2 := SortedMap.find?_eq_some_iff.mpr member
    exact ⟨(integral.keyed _ _ found).symm, integral.owned _ (Option.isSome_of_eq_some found),
      integral.stored _ _ found⟩

end Snapshot

namespace Validation

variable {log : ChangeLog} {previous : Option Snapshot} {current : Snapshot} {losses : Losses}

/-- Defects of the stored data are reported by the check of these only. -/
theorem mem_integrity_of_mem_findings {options : ValidationOptions} {d : Diagnostic}
    (found : d ∈ findings current previous log options losses) (defect : d.kind = .internalInvariant) :
    d ∈ integrity current := by
  have notOnReference : ¬ IsOnReference d.kind := by
    rw [defect]
    decide
  rw [findings_eq] at found
  simp only [List.mem_append] at found
  rcases found with
    (((((((integrity | loss) | reference) | multiple) | unused) | stale) | entry) | version) | undelivered
  · exact integrity
  · exact absurd (isOnReference_lossDiagnostics d loss) notOnReference
  · exact absurd (isOnReference_referenceDiagnostics d reference) notOnReference
  · cases defect.symm.trans (kind_multipleExpansions d multiple)
  · cases defect.symm.trans (kind_unused d unused)
  · cases defect.symm.trans (kind_stale d stale)
  · obtain ⟨e, _, inside⟩ := List.mem_flatMap.mp entry
    rcases kind_entryDiagnostics d inside with kind | kind <;> cases defect.symm.trans kind
  · rcases kind_versionDiagnostics d version with kind | kind <;> cases defect.symm.trans kind
  · cases defect.symm.trans (kind_undelivered d undelivered)

end Validation

variable {sources : List ModuleSource} {library : ModuleLibrary} {imports : ImportTable}
  {previous : Option Snapshot} {name : String} {version : Version} {S : Snapshot}

theorem isIntegral_of_assemble
    (assembled : assemble name version (compileBatch sources library imports previous).compiled = .ok S) :
    S.IsIntegral := by
  have stored : ∀ {m}, m ∈ (compileBatch sources library imports previous).compiled → ∀ {path},
      m.graph.contains path = true → S.contains path = true := by
    intro m compiled path inside
    obtain ⟨n, found⟩ := ModuleGraph.contains_iff.mp inside
    exact Option.isSome_of_eq_some ((node?_of_assemble assembled).mpr ⟨m, compiled, found⟩)
  -- What stands inside a node stands there in the module that the node is of.
  have origin : ∀ {path n}, S.node? path = some n → ∃ m ∈ (compileBatch sources library imports previous).compiled,
      m.graph.node? path = some n ∧ m.graph.inside (some path) = n.children := by
    intro path n found
    obtain ⟨m, compiled, found⟩ := (node?_of_assemble assembled).mp found
    exact ⟨m, compiled, found, by rw [ModuleGraph.inside, found]; rfl⟩
  constructor
  case keyed =>
    intro path n found
    obtain ⟨m, compiled, found, _⟩ := origin found
    exact (isForest_of_compiled compiled).keyed path n found
  case owned => exact fun path => owns_of_assemble assembled
  case stored =>
    intro path n found inner member
    obtain ⟨m, compiled, _, inside⟩ := origin found
    exact stored compiled ((isForest_of_compiled compiled).stored (some path) inner (inside ▸ member))
  case single =>
    rw [SortedMap.values, List.flatMap_map, List.nodup_flatMap]
    have named : ∀ e ∈ S.nodes.entries, e.2.children.Nodup ∧
        ∀ inner ∈ e.2.children, ∃ name, inner = e.1.child name := by
      intro e member
      obtain ⟨m, compiled, _, inside⟩ := origin (SortedMap.find?_eq_some_iff.mpr member)
      have forest := isForest_of_compiled compiled
      exact ⟨inside ▸ forest.distinct (some e.1), fun inner atNode => forest.named (some e.1) inner (inside ▸ atNode)⟩
    refine ⟨fun e member => (named e member).1, S.nodes.sorted.imp_of_mem fun {e e'} member member' less => ?_⟩
    intro inner atFirst atSecond
    obtain ⟨name, same⟩ := (named e member).2 inner atFirst
    obtain ⟨name', same'⟩ := (named e' member').2 inner atSecond
    exact ne_of_compare_lt less (Path.child_inj (same.symm.trans same'))
  case sources =>
    intro e member
    rw [(isMadeOf_of_assemble assembled).edges] at member
    obtain ⟨a, inside, member⟩ := List.mem_flatMap.mp member
    obtain ⟨m, compiled, rfl⟩ := List.mem_map.mp inside
    obtain ⟨id, found⟩ := BatchResult.mem_compiled.mp compiled
    exact stored compiled ((isCompiledAt_of_compiled found).contains_source e member)

/-- Sources cause no internal defect, whatever they are: what compiles of a batch either has a module or
a node in common, or makes up a snapshot that fits together and of which no validation reports a defect. -/
theorem assemble_isIntegral (sources : List ModuleSource) (library : ModuleLibrary) (imports : ImportTable)
    (previous : Option Snapshot) (name : String) (version : Version) :
    (∃ path, assemble name version (compileBatch sources library imports previous).compiled = .error path ∧
      Snapshot.IsTakenTwice ((compileBatch sources library imports previous).compiled.map
        ResolvedModule.addition) path) ∨
    ∃ S, assemble name version (compileBatch sources library imports previous).compiled = .ok S ∧
      S.integrityIssues = [] ∧ ∀ before log options,
        ∀ d ∈ SortedSet.toList (validate S before log options).diagnostics, d.kind ≠ .internalInvariant := by
  cases assembled : assemble name version (compileBatch sources library imports previous).compiled with
  | error path =>
    refine .inl ⟨path, rfl, ?_⟩
    rw [assemble_eq] at assembled
    exact (Snapshot.isMadeOf_nil name version).isTakenTwice_of_addAll
      (fun a member => (isForest_of_mem_additions a member).keyed) assembled
  | ok S =>
    have integral : S.integrityIssues = [] :=
      Snapshot.integrityIssues_eq_nil_iff.mpr (isIntegral_of_assemble assembled)
    refine .inr ⟨S, rfl, integral, fun before log options d reported defect => ?_⟩
    have found : d ∈ Validation.findings S before log options (S.lossesSince before) :=
      SortedSet.mem_toList_ofList.mp reported
    have inside := Validation.mem_integrity_of_mem_findings found defect
    rw [Validation.integrity, integral] at inside
    cases inside

end Deductions
