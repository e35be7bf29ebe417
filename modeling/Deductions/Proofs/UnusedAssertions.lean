import Deductions.Proofs.Graph.Walk
import Deductions.Proofs.LogEntries
import Deductions.Proofs.Snapshot.Faithful
import Deductions.Proofs.Snapshot.Restoration

namespace Deductions

namespace ModuleGraph.IsForest

variable {g : ModuleGraph} (forest : g.IsForest) {root path : Path}
include forest

theorem startsWith_of_nests (leads : Relation.ReflTransGen g.Nests root path) : path.startsWith root = true := by
  induction leads with
  | refl => exact root.startsWith_refl
  | @tail outer inner _ nests ih =>
    obtain ⟨name, rfl⟩ := forest.named (some outer) inner nests
    exact Path.startsWith_trans (Path.startsWith_child _ _) ih

theorem contains_of_nests (stored : g.contains root = true) (leads : Relation.ReflTransGen g.Nests root path) :
    g.contains path = true := by
  cases leads with
  | refl => exact stored
  | tail _ nests => exact forest.stored _ _ nests

theorem length_of_mem_roots (member : root ∈ g.roots) : root.length = g.module.length + 1 := by
  obtain ⟨name, rfl⟩ := forest.named none root member
  exact Path.length_child _ _

/-- A stored path that begins with that of another stored node lies inside this node, over any number of nodes. -/
theorem nests_of_startsWith (stored : g.contains root = true) (here : g.contains path = true)
    (begins : path.startsWith root = true) : Relation.ReflTransGen g.Nests root path := by
  induction length : path.length generalizing path with
  | zero => exact absurd (List.length_eq_zero_iff.mp length) path.nonempty
  | succ length' ih =>
    obtain ⟨place, member⟩ := forest.placed path here
    obtain ⟨name, rfl⟩ := forest.named place path member
    rcases Path.startsWith_child_iff.mp begins with rfl | begins
    · exact .refl
    cases place with
    | none =>
      have inModule := Path.isSome_strip?_iff.mp (forest.within root stored)
      exact absurd (Path.length_le_of_startsWith begins) (Nat.not_le.mpr inModule.2)
    | some outer =>
      rw [Path.length_child, Nat.add_right_cancel_iff] at length
      exact (ih (contains_of_mem_inside member) begins length).tail member

/-- A path longer than the module with which a stored path begins is that of a node too. -/
theorem contains_of_startsWith {outer : Path} (here : g.contains path = true) (begins : path.startsWith outer = true)
    (longer : g.module.length < outer.length) : g.contains outer = true := by
  induction length : path.length generalizing path with
  | zero => exact absurd (List.length_eq_zero_iff.mp length) path.nonempty
  | succ length' ih =>
    obtain ⟨place, member⟩ := forest.placed path here
    obtain ⟨name, rfl⟩ := forest.named place path member
    rcases Path.startsWith_child_iff.mp begins with rfl | begins
    · exact here
    cases place with
    | none => exact absurd (Path.length_le_of_startsWith begins) (Nat.not_le.mpr longer)
    | some outer =>
      rw [Path.length_child, Nat.add_right_cancel_iff] at length
      exact ih (contains_of_mem_inside member) begins length

end ModuleGraph.IsForest

namespace Snapshot

variable (S : Snapshot)

/-- There is an assertion at the path, and no expansion has it as a target. -/
def IsUnexpanded (path : Path) : Prop :=
  (∃ n, S.node? path = some n ∧ n.kind = .assertion) ∧
    ∀ e ∈ S.edges, e.isExpansion = true → ∀ r ∈ e.targets, r.path ≠ path

/-- The narration of the owner concludes the node at the path. -/
def Narrates (owner path : Path) : Prop :=
  ∃ steps, S.narrations.find? owner = some steps ∧ ∃ step ∈ steps, ∃ r ∈ step.conclusions, r.path = path

/-- A narration concludes the path that belongs to the declaration around it in the graph of its module, or to a
node inside this declaration. -/
def IsConcludedInside (modules : List ResolvedModule) (path : Path) : Prop :=
  ∃ m ∈ modules, ∃ root ∈ m.graph.roots, Relation.ReflTransGen m.graph.Nests root path ∧
    ∃ owner, Relation.ReflTransGen m.graph.Nests root owner ∧ S.Narrates owner path

/-- A narration concludes the path whose owner has a path that begins with the first segment of the path after
the innermost module around it. -/
def IsConcludedUnder (path : Path) : Prop :=
  ∃ module, IsInnermost S.modules.keys path module ∧ ∃ scope, path.take? (module.length + 1) = some scope ∧
    ∃ owner, owner.startsWith scope = true ∧ S.Narrates owner path

end Snapshot

/-- There is a diagnostic of the kind at the path. -/
def Report.Reports (r : Report) (kind : DiagnosticKind) (path : Path) : Prop :=
  ∃ d ∈ SortedSet.toList r.diagnostics, d.kind = kind ∧ d.path = some path

instance (r : Report) (kind : DiagnosticKind) (path : Path) : Decidable (r.Reports kind path) :=
  inferInstanceAs (Decidable (∃ d ∈ SortedSet.toList r.diagnostics, d.kind = kind ∧ d.path = some path))

namespace Validation

variable {S : Snapshot}

theorem isExpanded_eq_false_iff {path : Path} : isExpanded S path = false ↔
    ∀ e ∈ S.edges, e.isExpansion = true → ∀ r ∈ e.targets, r.path ≠ path := by
  rw [isExpanded, Snapshot.expansions]
  simp only [List.any_eq_false, List.mem_filter, List.any_eq_true, beq_iff_eq, not_exists, not_and, and_imp]

theorem concludes_iff {steps : List ResolvedStep} {path : Path} :
    concludes steps path = true ↔ ∃ step ∈ steps, ∃ r ∈ step.conclusions, r.path = path := by
  simp only [concludes, List.any_eq_true, beq_iff_eq]

theorem declarationOf_eq_some_iff {path scope : Path} : declarationOf S path = some scope ↔
    ∃ module, IsInnermost S.modules.keys path module ∧ path.take? (module.length + 1) = some scope := by
  simp only [declarationOf, Option.bind_eq_some_iff, Snapshot.moduleOf_eq_some_iff]

theorem any_narrations_iff {scope path : Path} : (S.narrations.entries.any fun (owner, steps) =>
    owner.startsWith scope && concludes steps path) = true ↔
      ∃ owner, owner.startsWith scope = true ∧ S.Narrates owner path := by
  simp only [List.any_eq_true, Bool.and_eq_true, concludes_iff, Prod.exists, ← SortedMap.find?_eq_some_iff]
  constructor
  · rintro ⟨owner, steps, found, begins, concluded⟩
    exact ⟨owner, begins, steps, found, concluded⟩
  · rintro ⟨owner, begins, steps, found, concluded⟩
    exact ⟨owner, steps, found, begins, concluded⟩

/-- What is said of a node is that no narration under its declaration concludes it. -/
theorem unusedDiagnostic?_eq_some_iff {n : Node} {d : Diagnostic} : unusedDiagnostic? S n = some d ↔
    n.kind = .assertion ∧ isExpanded S n.path = false ∧ ∃ scope, declarationOf S n.path = some scope ∧
      (¬ ∃ owner, owner.startsWith scope = true ∧ S.Narrates owner n.path) ∧
      ⟨.unusedAssertion, some n.path, s!"never concluded in the narration of {scope} nor proved by a deduction"⟩ = d := by
  rw [← and_assoc, unusedDiagnostic?]
  split
  next other =>
    refine iff_of_false nofun fun ⟨⟨kind, unexpanded⟩, _⟩ => ?_
    rw [Bool.or_eq_true, decide_eq_true_eq, unexpanded] at other
    exact other.elim (fun ne => ne kind) nofun
  next counts =>
    rw [Bool.or_eq_true, decide_eq_true_eq, not_or, not_not, Bool.not_eq_true] at counts
    rw [and_iff_right counts]
    refine Option.bind_eq_some_iff.trans (exists_congr fun scope => and_congr_right fun _ => ?_)
    split
    next concluded =>
      rw [any_narrations_iff] at concluded
      exact iff_of_false nofun fun reported => reported.1 concluded
    next none =>
      rw [any_narrations_iff] at none
      rw [and_iff_right none, Option.some.injEq]

/-- Unused assertions are reported by the check of these only. -/
theorem exists_node_of_mem_findings {previous : Option Snapshot} {log : ChangeLog} {options : ValidationOptions}
    {losses : Losses} {d : Diagnostic} (found : d ∈ findings S previous log options losses)
    (kind : d.kind = .unusedAssertion) : ∃ n ∈ S.nodes.values, unusedDiagnostic? S n = some d := by
  have notOnReference : ¬ IsOnReference d.kind := by
    rw [kind]
    decide
  rcases mem_findings.mp found with logless | (loss | reference) | ⟨e, _, _, entry⟩ | ⟨e, _, _, rfl⟩
  · simp only [loglessFindings, List.mem_append] at logless
    rcases logless with (((integrity | multiple) | unused) | version) | undelivered
    · cases kind.symm.trans (kind_integrity d integrity)
    · cases kind.symm.trans (kind_multipleExpansions d multiple)
    · split at unused
      · exact List.mem_filterMap.mp unused
      · cases unused
    · rcases kind_versionDiagnostics d version with other | other <;> cases kind.symm.trans other
    · cases kind.symm.trans (kind_undelivered d undelivered)
  · exact absurd (isOnReference_lossDiagnostics d loss) notOnReference
  · exact absurd (isOnReference_referenceDiagnostics d reference) notOnReference
  · rcases kind_entryDiagnostics d entry with other | other <;> cases kind.symm.trans other
  · cases kind

theorem mem_findings_of_unusedDiagnostic? {previous : Option Snapshot} {log : ChangeLog}
    {options : ValidationOptions} {losses : Losses} (warns : options.warnUnusedAssertions = true) {n : Node}
    (member : n ∈ S.nodes.values) {d : Diagnostic} (isDiagnostic : unusedDiagnostic? S n = some d) :
    d ∈ findings S previous log options losses := by
  refine mem_findings.mpr (.inl ?_)
  rw [loglessFindings, if_pos warns]
  simp only [List.mem_append]
  exact .inl (.inl (.inr (List.mem_filterMap.mpr ⟨n, member, isDiagnostic⟩)))

end Validation

theorem Snapshot.isConcludedUnder_iff {S : Snapshot} {path scope : Path}
    (declaration : Validation.declarationOf S path = some scope) :
    S.IsConcludedUnder path ↔ ∃ owner, owner.startsWith scope = true ∧ S.Narrates owner path := by
  obtain ⟨module, innermost, taken⟩ := Validation.declarationOf_eq_some_iff.mp declaration
  constructor
  · rintro ⟨module', innermost', scope', taken', concluded⟩
    cases innermost.unique innermost'
    cases taken.symm.trans taken'
    exact concluded
  · exact fun concluded => ⟨module, innermost, scope, taken, concluded⟩

open Batch Validation

section

variable {sources : List ModuleSource} {library : ModuleLibrary} {imports : ImportTable}
  {previous : Option Snapshot} {name : String} {version : Version} {S : Snapshot}
  (assembled : assemble name version (compileBatch sources library imports previous).compiled = .ok S)
include assembled

/-- Around every node is a module, and so a path that is taken for its declaration. -/
theorem exists_declarationOf_of_assemble {path : Path} (stored : S.contains path = true) :
    ∃ scope, declarationOf S path = some scope := by
  have madeOf := isMadeOf_of_assemble assembled
  obtain ⟨a, member, here⟩ := madeOf.contains_iff.mp stored
  have around := (isForest_of_mem_additions a member).within path here
  have some : ∃ module, S.moduleOf path = some module := by
    cases found : S.moduleOf path with
    | some module => exact ⟨module, rfl⟩
    | none =>
      have outside := (Snapshot.foldl_closer path S.modules.keys).2 found a.graph.module
        (madeOf.mem_keys_iff.mpr (List.mem_map_of_mem member))
      rw [around] at outside
      cases outside
  obtain ⟨module, innermost⟩ := some
  have longer := (Path.isSome_strip?_iff.mp (Snapshot.moduleOf_eq_some_iff.mp innermost).2.1).2
  obtain ⟨scope, taken⟩ := Path.exists_take? (Nat.succ_pos module.length) longer
  exact ⟨scope, Option.bind_eq_some_iff.mpr ⟨module, innermost, taken⟩⟩

/-- An assertion is reported just if it is unexpanded and nothing under the path taken for its declaration
concludes it. -/
theorem reports_unused_iff {options : ValidationOptions} (warns : options.warnUnusedAssertions = true)
    (before : Option Snapshot) (log : ChangeLog) (path : Path) :
    (validate S before log options).Reports .unusedAssertion path ↔
      S.IsUnexpanded path ∧ ¬ S.IsConcludedUnder path := by
  have keyed : ∀ path n, S.node? path = some n → n.path = path := (isFaithful_of_assemble assembled).keyed
  constructor
  · rintro ⟨d, reported, kind, atPath⟩
    obtain ⟨n, member, isDiagnostic⟩ :=
      exists_node_of_mem_findings (SortedSet.mem_toList_ofList.mp reported) kind
    obtain ⟨⟨key, n⟩, entry, rfl⟩ := List.mem_map.mp member
    have found : S.node? key = some n := SortedMap.find?_eq_some_iff.mpr entry
    obtain rfl := keyed key n found
    obtain ⟨isAssertion, unexpanded, scope, declaration, unconcluded, rfl⟩ :=
      unusedDiagnostic?_eq_some_iff.mp isDiagnostic
    cases atPath
    rw [Snapshot.isConcludedUnder_iff declaration]
    exact ⟨⟨⟨n, found, isAssertion⟩, isExpanded_eq_false_iff.mp unexpanded⟩, unconcluded⟩
  · rintro ⟨⟨⟨n, found, isAssertion⟩, unexpanded⟩, unconcluded⟩
    obtain rfl := keyed path n found
    have stored : S.contains n.path = true := Option.isSome_of_eq_some found
    obtain ⟨scope, declaration⟩ := exists_declarationOf_of_assemble assembled stored
    rw [Snapshot.isConcludedUnder_iff declaration] at unconcluded
    have isDiagnostic := unusedDiagnostic?_eq_some_iff.mpr
      ⟨isAssertion, isExpanded_eq_false_iff.mpr unexpanded, scope, declaration, unconcluded, rfl⟩
    have member : n ∈ S.nodes.values := List.mem_map_of_mem (SortedMap.find?_eq_some_iff.mp found)
    exact ⟨_, SortedSet.mem_toList_ofList.mpr (mem_findings_of_unusedDiagnostic? warns member isDiagnostic), rfl, rfl⟩

/-- Where no module lies at a declaration or inside it, it is the declaration of all its nodes. -/
theorem declarationOf_of_unshared {m : ResolvedModule}
    (compiled : m ∈ (compileBatch sources library imports previous).compiled) {root path : Path}
    (member : root ∈ m.graph.roots) (inside : Relation.ReflTransGen m.graph.Nests root path)
    (unshared : ∀ module ∈ S.modules.keys, module.startsWith root = false) : declarationOf S path = some root := by
  have forest := isForest_of_compiled compiled
  have begins := forest.startsWith_of_nests inside
  obtain ⟨aroundRoot, longer⟩ := Path.isSome_strip?_iff.mp (forest.within root (forest.stored none root member))
  have isModule : m.graph.module ∈ S.modules.keys :=
    (isMadeOf_of_assemble assembled).mem_keys_iff.mpr (List.mem_map_of_mem (List.mem_map_of_mem compiled))
  -- a longer module around the path would lie at the declaration or inside it
  have innermost : IsInnermost S.modules.keys path m.graph.module := by
    refine ⟨isModule, Path.isSome_strip?_iff.mpr ⟨Path.startsWith_trans begins aroundRoot, ?_⟩,
      fun module isModule around => ?_⟩
    · exact Nat.lt_of_lt_of_le longer (Path.length_le_of_startsWith begins)
    · refine Nat.le_of_not_lt fun between => ?_
      have within : root.length ≤ module.length := (forest.length_of_mem_roots member).trans_le between
      have shared := Path.startsWith_of_length_le begins (Path.isSome_strip?_iff.mp around).1 within
      rw [unshared module isModule] at shared
      cases shared
  exact declarationOf_eq_some_iff.mpr
    ⟨_, innermost, forest.length_of_mem_roots member ▸ Path.take?_of_startsWith begins⟩

/-- Where no module lies at a declaration or inside it, the narrations that count for its nodes are its own and
those of the nodes inside it. -/
theorem isConcludedUnder_iff_of_unshared {m : ResolvedModule}
    (compiled : m ∈ (compileBatch sources library imports previous).compiled) {root path : Path}
    (member : root ∈ m.graph.roots) (inside : Relation.ReflTransGen m.graph.Nests root path)
    (unshared : ∀ module ∈ S.modules.keys, module.startsWith root = false) : S.IsConcludedUnder path ↔
      S.IsConcludedInside (compileBatch sources library imports previous).compiled path := by
  have forest := isForest_of_compiled compiled
  have stored := forest.stored none root member
  have begins := forest.startsWith_of_nests inside
  have declaration := declarationOf_of_unshared assembled compiled member inside unshared
  rw [Snapshot.isConcludedUnder_iff declaration]
  constructor
  · rintro ⟨owner, under, steps, found, concludes⟩
    obtain ⟨m', compiled', ofModule⟩ := (find?_narrations_of_assemble assembled).mp found
    have stored' := (isFaithful_of_compiled compiled').owners owner steps ofModule
    have forest' := isForest_of_compiled compiled'
    have around' := (Path.isSome_strip?_iff.mp (forest'.within owner stored')).1
    -- the owner is a node of this module, as another with a node at the declaration would share the declaration
    have same : m = m' := by
      refine eq_of_common_of_assemble assembled compiled compiled' stored ?_
      refine forest'.contains_of_startsWith stored' under (Nat.lt_of_not_le fun within => ?_)
      have shared := Path.startsWith_of_length_le under around' within
      have isModule : m'.graph.module ∈ S.modules.keys := (isMadeOf_of_assemble assembled).mem_keys_iff.mpr
        (List.mem_map_of_mem (List.mem_map_of_mem compiled'))
      rw [unshared _ isModule] at shared
      cases shared
    subst same
    exact ⟨m, compiled, root, member, inside, owner, forest.nests_of_startsWith stored stored' under, steps, found,
      concludes⟩
  · rintro ⟨m', compiled', root', member', inside', owner, insideOwner, narrates⟩
    have forest' := isForest_of_compiled compiled'
    obtain rfl := eq_of_common_of_assemble assembled compiled compiled' (forest.contains_of_nests stored inside)
      (forest'.contains_of_nests (forest'.stored none root' member') inside')
    have same : root' = root := Path.eq_of_startsWith_of_length (forest.startsWith_of_nests inside') begins
      ((forest.length_of_mem_roots member').trans (forest.length_of_mem_roots member).symm)
    exact ⟨owner, same ▸ forest.startsWith_of_nests insideOwner, narrates⟩

/-- An assertion is reported just if no expansion has it as a target and no narration under the path taken for its
declaration concludes it. So the reports are right exactly if those narrations and the ones inside its declaration
agree on each unexpanded assertion, and they do for all nodes of a declaration that no module lies at or inside. -/
theorem validate_reports_unused_iff {options : ValidationOptions} (warns : options.warnUnusedAssertions = true)
    (before : Option Snapshot) (log : ChangeLog) :
    (∀ path, (validate S before log options).Reports .unusedAssertion path ↔
      S.IsUnexpanded path ∧ ¬ S.IsConcludedUnder path) ∧
    ((∀ path, (validate S before log options).Reports .unusedAssertion path ↔ S.IsUnexpanded path ∧
        ¬ S.IsConcludedInside (compileBatch sources library imports previous).compiled path) ↔
      ∀ path, S.IsUnexpanded path → (S.IsConcludedUnder path ↔
        S.IsConcludedInside (compileBatch sources library imports previous).compiled path)) ∧
    ∀ m ∈ (compileBatch sources library imports previous).compiled, ∀ root ∈ m.graph.roots,
      (∀ module ∈ S.modules.keys, module.startsWith root = false) →
        ∀ path, Relation.ReflTransGen m.graph.Nests root path →
          ((validate S before log options).Reports .unusedAssertion path ↔ S.IsUnexpanded path ∧
            ¬ S.IsConcludedInside (compileBatch sources library imports previous).compiled path) := by
  have reports := reports_unused_iff assembled warns before log
  refine ⟨reports, ?_, fun m compiled root member unshared path inside => ?_⟩
  · simp only [reports, and_congr_right_iff, not_iff_not]
  · rw [reports, isConcludedUnder_iff_of_unshared assembled compiled member inside unshared]

end

/-- A declaration whose own narration concludes its assertion, and one with an assertion that nothing concludes. -/
def concludingSource : ModuleSource := ⟨.single "p", .plain 1 0 0,
  "deduc T \x7b asrt C \x7b en = \"c\" \x7d narration = \"Therefore C.\" \x7d deduc P \x7b asrt A \x7b en = \"a\" \x7d \x7d"⟩

/-- The snapshot of the batch of the source and others. -/
def collectConcluding (others : List ModuleSource) : Option Snapshot :=
  (assemble "lib" concludingSource.version (compileBatch (concludingSource :: others) {} {} none).compiled).toOption

theorem validate_reports_unused_iff_concludingSource : ∃ S m,
    assemble "lib" concludingSource.version (compileBatch [concludingSource] {} {} none).compiled = .ok S ∧
    ({} : ValidationOptions).warnUnusedAssertions = true ∧
    m ∈ (compileBatch [concludingSource] {} {} none).compiled ∧
    concludingSource.path.child "P" ∈ m.graph.roots ∧
    (∀ module ∈ S.modules.keys, module.startsWith (concludingSource.path.child "P") = false) ∧
    Relation.ReflTransGen m.graph.Nests (concludingSource.path.child "P")
      ((concludingSource.path.child "P").child "A") ∧
    S.IsUnexpanded ((concludingSource.path.child "P").child "A") ∧
    ¬ S.IsConcludedInside (compileBatch [concludingSource] {} {} none).compiled
      ((concludingSource.path.child "P").child "A") := by
  have collects : (collectConcluding []).any (fun S =>
      (validate S none {} {}).Reports .unusedAssertion ((concludingSource.path.child "P").child "A") &&
        (S.modules.keys.all fun module => !module.startsWith (concludingSource.path.child "P")) &&
        (compileBatch [concludingSource] {} {} none).compiled.any fun m =>
          m.graph.roots.contains (concludingSource.path.child "P") &&
            m.graph.contains ((concludingSource.path.child "P").child "A")) = true := by decide +kernel
  obtain ⟨S, collected, shape⟩ := Option.any_eq_true _ _ |>.mp collects
  simp only [Bool.and_eq_true, decide_eq_true_eq, List.all_eq_true, Bool.not_eq_true', List.any_eq_true,
    List.contains_iff_mem] at shape
  obtain ⟨⟨reported, unshared⟩, m, compiled, member, here⟩ := shape
  have assembled := toOption_eq_some_iff.mp collected
  have forest := isForest_of_compiled compiled
  have inside := forest.nests_of_startsWith (forest.stored none _ member) here (Path.startsWith_child _ _)
  have counts := ((validate_reports_unused_iff assembled rfl none {}).2.2 m compiled _ member unshared _ inside).mp reported
  exact ⟨S, m, assembled, rfl, compiled, member, unshared, inside, counts⟩

/-- With a module at the declaration, the narration of the declaration does not count, and its assertion is
reported although this narration concludes it. -/
theorem concludingSource_reported : ∃ S, (compileBatch [concludingSource, takingSource] {} {} none).succeeded = true ∧
    assemble "lib" concludingSource.version
      (compileBatch [concludingSource, takingSource] {} {} none).compiled = .ok S ∧
    (validate S none {} {}).Reports .unusedAssertion ((concludingSource.path.child "T").child "C") ∧
    S.IsUnexpanded ((concludingSource.path.child "T").child "C") ∧
    S.IsConcludedInside (compileBatch [concludingSource, takingSource] {} {} none).compiled
      ((concludingSource.path.child "T").child "C") := by
  have collects : (collectConcluding [takingSource]).any (fun S =>
      (validate S none {} {}).Reports .unusedAssertion ((concludingSource.path.child "T").child "C") &&
        ((compileBatch [concludingSource, takingSource] {} {} none).succeeded &&
        (compileBatch [concludingSource, takingSource] {} {} none).compiled.any fun m =>
          m.graph.roots.contains (concludingSource.path.child "T") &&
            (m.graph.contains ((concludingSource.path.child "T").child "C") &&
              (S.narrations.find? (concludingSource.path.child "T")).any fun steps =>
                concludes steps ((concludingSource.path.child "T").child "C")))) = true := by decide +kernel
  obtain ⟨S, collected, shape⟩ := Option.any_eq_true _ _ |>.mp collects
  simp only [Bool.and_eq_true, decide_eq_true_eq, List.any_eq_true, List.contains_iff_mem,
    Option.any_eq_true] at shape
  obtain ⟨reported, succeeded, m, compiled, member, here, steps, found, concluded⟩ := shape
  have assembled := toOption_eq_some_iff.mp collected
  have forest := isForest_of_compiled compiled
  have inside := forest.nests_of_startsWith (forest.stored none _ member) here (Path.startsWith_child _ _)
  have unexpanded := ((reports_unused_iff assembled rfl none {} _).mp reported).1
  exact ⟨S, succeeded, assembled, reported, unexpanded, m, compiled, _, member, inside, _, .refl, steps, found,
    concludes_iff.mp concluded⟩

end Deductions
