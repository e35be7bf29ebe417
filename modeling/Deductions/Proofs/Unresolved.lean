import Deductions.Proofs.FirstOccurrence
import Deductions.Proofs.Resolution

namespace Deductions

namespace Resolution

/-- Whether the name is reported at the node. -/
def Findings.Misses (f : Findings) (node name : Path) : Prop := .unresolved node name ∈ f.errors

/-- Whether an error is about something else than a name that leads nowhere or cases that go round. -/
def IsOther (e : ResolveError) : Prop :=
  (∀ node name, e ≠ .unresolved node name) ∧ ∀ cycle, e ≠ .cyclicCaseChain cycle

/-- Whether a narration or a clause of the node has the name, to be looked up from the scope. -/
def Mentions (references : List Reference) (node : Node) (scope name : Path) : Prop :=
  scope = node.path ∧ name ∈ Candidate.narrationNames node ∨
    ∃ r ∈ references, r.source = node.path ∧ r.scope = scope ∧ r.name = name

namespace Findings

variable {f : Findings} {node name : Path}

theorem misses_addErrors {errors : List ResolveError} (other : ∀ e ∈ errors, IsOther e) :
    (f.addErrors errors).Misses node name ↔ f.Misses node name := by
  rw [Misses, addErrors, List.mem_append]
  exact or_iff_left fun member => (other _ member).1 node name rfl

@[simp] theorem misses_addEdges {edges : List Edge} :
    (f.addEdges edges).Misses node name ↔ f.Misses node name := Iff.rfl

@[simp] theorem misses_addCase {source target : Path} :
    (f.addCase source target).Misses node name ↔ f.Misses node name := Iff.rfl

@[simp] theorem misses_keep {owner : Path} {steps : Option (List ResolvedStep)} :
    (f.keep owner steps).Misses node name ↔ f.Misses node name := by
  cases steps <;> exact Iff.rfl

theorem misses_note {graph : ModuleGraph} {source : Node} {written : Path} {role : GhostRole}
    {result : Lookup} : (f.note graph source written role result).Misses node name ↔
      f.Misses node name ∨ node = source.path ∧ name = written ∧ result = .missing := by
  cases result with
  | found target =>
    rw [note]
    split <;> simp [Misses]
  | ghost target =>
    rw [note]
    split <;> simp
  | missing =>
    rw [note]
    split
    next already =>
      rw [List.contains_iff_mem] at already
      refine ⟨.inl, ?_⟩
      rintro (old | ⟨rfl, rfl, _⟩)
      · exact old
      · exact already
    · simp [Misses, addErrors]

end Findings

variable {graph : ModuleGraph} {s : Surroundings} {imports : ImportTable} {f : Findings}
  {node name : Path}

theorem misses_noteLookups {owner : Node} {found : List (Path × Lookup)} :
    (noteLookups graph owner f found).Misses node name ↔
      f.Misses node name ∨ node = owner.path ∧ (name, Lookup.missing) ∈ found := by
  induction found generalizing f with
  | nil => simp [noteLookups]
  | cons l found ih =>
    rw [noteLookups, List.foldl_cons, ← noteLookups, ih, Findings.misses_note, List.mem_cons]
    obtain ⟨written, result⟩ := l
    simp only [Prod.mk.injEq, eq_comm (a := Lookup.missing), and_or_left, or_assoc]

theorem isOther_conclusionErrors {owner : Node} {step : NarrationStep} {target : Node} :
    ∀ e ∈ conclusionErrors owner step target, IsOther e := by
  unfold conclusionErrors
  repeat' split
  all_goals simp [IsOther]

theorem misses_resolveStep {owner : Node} {step : NarrationStep} :
    (resolveStep graph s imports owner f step).2.Misses node name ↔ f.Misses node name ∨
      node = owner.path ∧ lookup graph s imports owner.path name = .missing ∧
        ∃ text ∈ step.names, (Path.parse text).toOption = some name := by
  rw [resolveStep]
  dsimp only
  rw [Findings.misses_addEdges, Findings.misses_addErrors, misses_noteLookups]
  · simp only [List.mem_append, mem_lookups, NarrationStep.names, mem_firstOccurrences]
    refine or_congr_right (and_congr_right fun _ => ?_)
    constructor
    · rintro (⟨text, member, parsed, missing⟩ | ⟨text, member, parsed, missing⟩)
      · exact ⟨missing.symm, text, .inl member, parsed⟩
      · exact ⟨missing.symm, text, .inr member, parsed⟩
    · rintro ⟨missing, text, member | member, parsed⟩
      · exact .inl ⟨text, member, parsed, missing.symm⟩
      · exact .inr ⟨text, member, parsed, missing.symm⟩
  · intro e member
    obtain ⟨target, _, inside⟩ := List.mem_flatMap.mp member
    exact isOther_conclusionErrors e inside

theorem misses_resolveSteps {owner : Node} {steps : List NarrationStep} :
    (resolveSteps graph s imports owner f steps).2.Misses node name ↔ f.Misses node name ∨
      node = owner.path ∧ lookup graph s imports owner.path name = .missing ∧
        ∃ step ∈ steps, ∃ text ∈ step.names, (Path.parse text).toOption = some name := by
  induction steps generalizing f with
  | nil => simp [resolveSteps]
  | cons step steps ih =>
    rw [resolveSteps]
    dsimp only
    rw [ih, misses_resolveStep, or_assoc, ← and_or_left, ← and_or_left]
    simp

theorem misses_resolveNarration {owner : Node} :
    (resolveNarration graph s imports f owner).2.Misses node name ↔ f.Misses node name ∨
      node = owner.path ∧ lookup graph s imports owner.path name = .missing ∧
        name ∈ Candidate.narrationNames owner := by
  rw [resolveNarration, Candidate.narrationNames]
  cases owner.narration with
  | none => simp
  | some steps => simp [misses_resolveSteps]

theorem isOther_targetErrors {node target : Node} {declared : Nat} :
    ∀ e ∈ targetErrors node target declared, IsOther e := by
  unfold targetErrors
  repeat' split
  all_goals simp [IsOther]

theorem misses_linkSupposition {source target : Node} {clause : Clause} {edge : Edge} :
    (linkSupposition graph source target clause edge f).Misses node name ↔ f.Misses node name := by
  rw [linkSupposition]
  split
  · dsimp only
    split <;> simp
  · exact Findings.misses_addErrors (by simp [IsOther])

theorem misses_linkReference {source target : Node} {declared : Nat} {clause : Clause} :
    (linkReference graph source declared clause target f).Misses node name ↔ f.Misses node name := by
  cases clause with
  | of => exact Findings.misses_addErrors isOther_targetErrors
  | on => exact Findings.misses_addEdges
  | versus => exact misses_linkSupposition
  | contra => exact misses_linkSupposition

theorem misses_resolveReferences {source : Node} {declared : Nat} {references : List Reference} :
    (resolveReferences graph s imports source declared f references).2.Misses node name ↔
      f.Misses node name ∨ node = source.path ∧ ∃ r ∈ references, r.name = name ∧
        lookup graph s imports r.scope name = .missing := by
  induction references generalizing f with
  | nil => simp [resolveReferences]
  | cons r references ih =>
    have first : (name = r.name ∧ lookup graph s imports r.scope r.name = .missing) ↔
        r.name = name ∧ lookup graph s imports r.scope name = .missing := by
      constructor <;> rintro ⟨rfl, missing⟩ <;> exact ⟨rfl, missing⟩
    rw [resolveReferences]
    dsimp only
    split
    · rw [ih, Findings.misses_note, first, or_assoc, ← and_or_left]
      simp
    · rw [ih, misses_linkReference, Findings.misses_note, first, or_assoc, ← and_or_left]
      simp

theorem misses_claim {source target : Node} :
    (claim graph s source f target).Misses node name ↔ f.Misses node name := by
  rw [claim]
  split
  · exact Findings.misses_addErrors (by simp [IsOther])
  · exact Iff.rfl

theorem misses_foldl_claim {source : Node} {targets : List Node} :
    (targets.foldl (claim graph s source) f).Misses node name ↔ f.Misses node name := by
  induction targets generalizing f with
  | nil => exact Iff.rfl
  | cons target targets ih => exact ih.trans misses_claim

theorem isOther_spanErrors {source : Node} {targets : List Node} :
    ∀ e ∈ spanErrors graph s source targets, IsOther e := by
  unfold spanErrors
  split <;> simp [IsOther]

theorem misses_expand {source : Node} {targets : List Node} {steps : List ResolvedStep} :
    (expand graph s source targets steps f).Misses node name ↔ f.Misses node name := by
  rw [expand]
  split
  · exact Iff.rfl
  · rw [Findings.misses_addEdges, misses_foldl_claim, Findings.misses_addErrors isOther_spanErrors]

theorem misses_resolveNode {references : List Reference} {n : Node} :
    (resolveNode graph s imports references f n).Misses node name ↔ f.Misses node name ∨
      node = n.path ∧ ∃ scope, Mentions references n scope name ∧
        lookup graph s imports scope name = .missing := by
  have written : (∃ scope, Mentions references n scope name ∧
      lookup graph s imports scope name = .missing) ↔
      (lookup graph s imports n.path name = .missing ∧ name ∈ Candidate.narrationNames n) ∨
      ∃ r ∈ references.filter (fun r => r.source == n.path), r.name = name ∧
        lookup graph s imports r.scope name = .missing := by
    constructor
    · rintro ⟨scope, ⟨rfl, member⟩ | ⟨r, member, atNode, rfl, same⟩, missing⟩
      · exact .inl ⟨missing, member⟩
      · exact .inr ⟨r, List.mem_filter.mpr ⟨member, beq_iff_eq.mpr atNode⟩, same, missing⟩
    · rintro (⟨missing, member⟩ | ⟨r, member, same, missing⟩)
      · exact ⟨n.path, .inl ⟨rfl, member⟩, missing⟩
      · obtain ⟨member, atNode⟩ := List.mem_filter.mp member
        exact ⟨r.scope, .inr ⟨r, member, beq_iff_eq.mp atNode, rfl, same⟩, missing⟩
  rw [resolveNode_eq, Findings.misses_keep, misses_expand, referred, misses_resolveReferences,
    misses_resolveNarration, written, or_assoc, ← and_or_left]

/-- A name is reported just if a node has it somewhere from where it leads nowhere. -/
theorem misses_findings {c : Candidate} {s : Surroundings} : (findings c s).Misses node name ↔
    ∃ n ∈ c.graph.walk.getD [], n.path = node ∧ ∃ scope, Mentions c.references n scope name ∧
      lookup c.graph s (c.imports.mergedWith s.imports) scope name = .missing := by
  have general : ∀ (nodes : List Node) (f : Findings), (nodes.foldl (resolveNode c.graph s
      (c.imports.mergedWith s.imports) c.references) f).Misses node name ↔ f.Misses node name ∨
      ∃ n ∈ nodes, n.path = node ∧ ∃ scope, Mentions c.references n scope name ∧
        lookup c.graph s (c.imports.mergedWith s.imports) scope name = .missing := by
    intro nodes
    induction nodes with
    | nil => simp
    | cons n nodes ih =>
      intro f
      rw [List.foldl_cons, ih, misses_resolveNode, or_assoc, eq_comm (a := node)]
      simp
  exact (general _ {}).trans (or_iff_right List.not_mem_nil)

end Resolution

open Resolution

/-- A resolution that fails over a name that leads nowhere reports it, and reports no other. -/
theorem Candidate.resolve_unresolved_iff {c : Candidate} {s : Surroundings} {node name : Path} :
    (∃ errors, c.resolve s = .error errors ∧ .unresolved node name ∈ errors) ↔
      (findings c s).Misses node name := by
  have cyclic : ∀ cycles : List (List Path),
      .unresolved node name ∉ cycles.map ResolveError.cyclicCaseChain := by
    intro cycles member
    obtain ⟨_, _, same⟩ := List.mem_map.mp member
    cases same
  rw [Candidate.resolve]
  dsimp only
  split
  · simp only [Except.error.injEq, exists_eq_left', List.mem_append, or_iff_left (cyclic _)]
    rfl
  next noErrors =>
    have none : ¬ (findings c s).Misses node name := by
      simp only [Bool.not_eq_true', Bool.not_eq_false, List.isEmpty_iff, List.append_eq_nil_iff] at noErrors
      rw [Findings.Misses, noErrors.1]
      exact List.not_mem_nil
    refine iff_of_false ?_ none
    split
    · rintro ⟨errors, refused, member⟩
      cases refused
      obtain ⟨error, same⟩ := isGraph_of_mem_attach _ member
      cases same
    · rintro ⟨errors, refused, _⟩
      cases refused

end Deductions
