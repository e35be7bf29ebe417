import Deductions.Proofs.Findings
import Deductions.Proofs.Typing

namespace Deductions

namespace Resolution

/-- No name is reported twice for a node. -/
def Findings.MissesOnce (f : Findings) : Prop := ∀ node name, f.errors.count (.unresolved node name) ≤ 1

theorem Findings.MissesOnce.addErrors {f : Findings} (once : f.MissesOnce) {errors : List ResolveError}
    (others : ∀ e ∈ errors, IsOther e) : (f.addErrors errors).MissesOnce := by
  intro node name
  have none : errors.count (.unresolved node name) = 0 :=
    List.count_eq_zero.mpr fun member => (others _ member).1 node name rfl
  rw [Findings.addErrors, List.count_append, none, Nat.add_zero]
  exact once node name

theorem Findings.MissesOnce.note {f : Findings} (once : f.MissesOnce) (graph : ModuleGraph) (n : Node)
    (written : Path) (role : GhostRole) (result : Lookup) : (f.note graph n written role result).MissesOnce := by
  cases result with
  | found t =>
    rw [Findings.note]
    split <;> exact once
  | ghost target =>
    rw [Findings.note]
    split <;> exact once
  | missing =>
    rw [Findings.note]
    split
    · exact once
    next new =>
      intro node name
      rw [Findings.addErrors, List.count_append, List.count_singleton]
      split
      next same =>
        rw [beq_iff_eq] at same
        rw [← same, List.count_eq_zero.mpr fun member => new (List.contains_iff_mem.mpr member)]
      · exact once node name

/-- One step reports a name at most once, if it was not reported before. -/
theorem Findings.Step.missesOnce {graph : ModuleGraph} {s : Surroundings} {imports : ImportTable}
    {references : List Reference} {n : Node} {f f' : Findings}
    (step : Findings.Step graph s imports references n f f') (once : f.MissesOnce) : f'.MissesOnce := by
  cases step with
  | note => exact once.note _ _ _ _ _
  | report others => exact once.addErrors others
  | link | innerCase | outerCase | claim | keep => exact once

theorem missesOnce_findings (c : Candidate) (s : Surroundings) : (findings c s).MissesOnce :=
  findings_induction (fun _ _ => Nat.zero_le 1) fun _ _ _ _ step once => step.missesOnce once

end Resolution

open Resolution

/-- The name stands in a clause of the node or in its narration, and leads neither to a node nor to a ghost from
where it stands. -/
def Candidate.Lacks (c : Candidate) (s : Surroundings) (node name : Path) : Prop :=
  (∃ r ∈ c.references, r.source = node ∧ r.name = name ∧
    lookup c.graph s (c.imports.mergedWith s.imports) r.scope name = .missing) ∨
  ∃ n, c.graph.node? node = some n ∧ name ∈ narrationNames n ∧
    lookup c.graph s (c.imports.mergedWith s.imports) node name = .missing

theorem Candidate.count_unresolved {module : Path} {version : Version} {source : Source} {c : Candidate}
    (built : Candidate.build module version source = .ok c) {s : Surroundings} {errors : List ResolveError}
    (refused : c.resolve s = .error errors) (node name : Path) : errors.count (.unresolved node name) ≤ 1 := by
  have cyclic : .unresolved node name ∉ (findings c s).versus.cycles.map ResolveError.cyclicCaseChain := by
    intro member
    obtain ⟨_, _, same⟩ := List.mem_map.mp member
    cases same
  rw [errors_of_resolve built refused, List.count_append, List.count_eq_zero.mpr cyclic]
  exact missesOnce_findings c s node name

section

variable {module : Path} {version : Version} {source : Source} {c : Candidate} (wellFormed : source.IsWellFormed)
  (built : Candidate.build module version source = .ok c) {s : Surroundings}
include wellFormed built

/-- Names are reported just where they stand and lead nowhere. -/
theorem Candidate.misses_iff_lacks {node name : Path} : (findings c s).Misses node name ↔ c.Lacks s node name := by
  rw [misses_findings]
  constructor
  · rintro ⟨n, inside, rfl, scope, ⟨rfl, narrated⟩ | ⟨r, written, atNode, rfl, rfl⟩, missing⟩
    · exact .inr ⟨n, (mem_walk_iff built).mp inside, narrated, missing⟩
    · exact .inl ⟨r, written, atNode, rfl, missing⟩
  · rintro (⟨r, written, rfl, rfl, missing⟩ | ⟨n, stored, narrated, missing⟩)
    · obtain ⟨n, inside, own⟩ := exists_mem_ownReferences wellFormed built written
      have atNode := (mem_ownReferences.mp own).2
      exact ⟨n, inside, atNode.symm, r.scope, .inr ⟨r, written, atNode, rfl, rfl⟩, missing⟩
    · obtain rfl : n.path = node := isKeyed_of_build built _ n stored
      exact ⟨n, (mem_walk_iff built).mpr stored, rfl, n.path, .inl ⟨rfl, narrated⟩, missing⟩

end

/-- Where some name leads nowhere, a module does not resolve.  What is reported for a module that does not resolve
has every name that leads nowhere once for its node, and no other name; where it has none, every name leads
somewhere. -/
theorem ModuleSource.resolve_reports_lacks {s : ModuleSource} {c : Candidate} (built : s.build = .ok c)
    (surroundings : Surroundings) :
    ((∃ node name, c.Lacks surroundings node name) → ∃ errors, c.resolve surroundings = .error errors) ∧
    ∀ errors, c.resolve surroundings = .error errors →
      (∀ node name, c.Lacks surroundings node name → errors.count (.unresolved node name) = 1) ∧
      (∀ node name, ¬ c.Lacks surroundings node name → .unresolved node name ∉ errors) ∧
      ((∀ node name, .unresolved node name ∉ errors) → ∀ node name, ¬ c.Lacks surroundings node name) := by
  obtain ⟨source, wellFormed, build⟩ := s.build_eq_ok built
  have reported : ∀ node name, c.Lacks surroundings node name ↔
      ∃ errors, c.resolve surroundings = .error errors ∧ .unresolved node name ∈ errors := fun node name =>
    (Candidate.misses_iff_lacks wellFormed build).symm.trans Candidate.resolve_unresolved_iff.symm
  refine ⟨fun ⟨node, name, lacks⟩ => ?_, fun errors refused => ?_⟩
  · obtain ⟨errors, refused, _⟩ := (reported node name).mp lacks
    exact ⟨errors, refused⟩
  have listed : ∀ node name, c.Lacks surroundings node name → .unresolved node name ∈ errors := by
    intro node name lacks
    obtain ⟨errors', refused', member⟩ := (reported node name).mp lacks
    cases refused.symm.trans refused'
    exact member
  refine ⟨fun node name lacks => ?_, fun node name fine member => fine ?_, fun none node name lacks => ?_⟩
  · exact Nat.le_antisymm (Candidate.count_unresolved build refused node name)
      (List.count_pos_iff.mpr (listed node name lacks))
  · exact (reported node name).mpr ⟨errors, refused, member⟩
  · exact none node name (listed node name lacks)

/-- A deduction with two names that lead nowhere: the one stands in a clause and twice in the narration, the other
twice in the narration. -/
def unknownSource : ModuleSource := ⟨.single "m", .plain 1 0 0,
  "deduc P of Missing \x7b narration = \"From Missing get Other. Therefore Other by Missing.\" \x7d"⟩

theorem resolve_reports_lacks_unknownSource : ∃ c, unknownSource.build = .ok c ∧
    c.resolve {} = .error (["Missing", "Other"].map fun name =>
      .unresolved (unknownSource.path.child "P") (.single name)) ∧
    ∀ node name, c.Lacks {} node name ↔
      node = unknownSource.path.child "P" ∧ name ∈ ["Missing", "Other"].map Path.single := by
  have refused : (unknownSource.build.toOption.map fun c => c.resolve {}) = some (.error (["Missing", "Other"].map
      fun name => .unresolved (unknownSource.path.child "P") (.single name))) := by decide +kernel
  obtain ⟨c, built, refused⟩ := Option.map_eq_some_iff.mp refused
  have built := Batch.toOption_eq_some_iff.mp built
  have reports := (ModuleSource.resolve_reports_lacks built {}).2 _ refused
  have reported : ∀ node name, c.Lacks {} node name ↔ ResolveError.unresolved node name ∈ ["Missing", "Other"].map
      fun name => .unresolved (unknownSource.path.child "P") (.single name) := fun node name =>
    ⟨fun lacks => List.count_pos_iff.mp (reports.1 node name lacks).ge, fun member =>
      not_imp_not.mp (reports.2.1 node name) member⟩
  refine ⟨c, built, refused, fun node name => (reported node name).trans ?_⟩
  simp [and_or_left]

end Deductions
