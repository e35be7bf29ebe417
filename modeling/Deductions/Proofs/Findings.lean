import Deductions.Proofs.Settled
import Mathlib.Logic.Relation

namespace Deductions

namespace Resolution

/-- A name in a `versus` clause of `source` leads to `target`, a supposition of the module. -/
def IsCase (graph : ModuleGraph) (s : Surroundings) (imports : ImportTable) (references : List Reference)
    (source target : Path) : Prop :=
  ∃ r ∈ references, r.source = source ∧ r.clause = .versus ∧ ∃ t,
    lookup graph s imports r.scope r.name = .found t ∧ t.kind = .supposition ∧ t.path = target ∧
      graph.contains target = true

/-- One step of the resolution of the node `n`. -/
inductive Findings.Step (graph : ModuleGraph) (s : Surroundings) (imports : ImportTable)
    (references : List Reference) (n : Node) : Findings → Findings → Prop
  | note {f scope name role} (mentions : Mentions references n scope name) :
      Step graph s imports references n f (f.note graph n name role (lookup graph s imports scope name))
  | report {f errors} (others : ∀ e ∈ errors, IsOther e) :
      Step graph s imports references n f (f.addErrors errors)
  | link {f edges} (others : ∀ e ∈ edges, e.kind ≠ .alternativeCase) :
      Step graph s imports references n f (f.addEdges edges)
  /-- An alternative case within the module, which is noted. -/
  | innerCase {f} {t : Node} (isCase : IsCase graph s imports references n.path t.path) :
      Step graph s imports references n f ((f.addEdges [.alternativeCase n.ref t.ref]).addCase n.path t.path)
  | outerCase {f} {t : Node} (outside : ¬ graph.contains t.path = true) :
      Step graph s imports references n f (f.addEdges [.alternativeCase n.ref t.ref])
  | claim {f target} :
      Step graph s imports references n f { f with claimed := f.claimed.insert target n.path }
  | keep {f steps} :
      Step graph s imports references n f { f with narrations := f.narrations.insert n.path steps }

/-- A run of such steps. -/
abbrev Findings.Steps (graph : ModuleGraph) (s : Surroundings) (imports : ImportTable)
    (references : List Reference) (n : Node) : Findings → Findings → Prop :=
  Relation.ReflTransGen (Findings.Step graph s imports references n)

variable {graph : ModuleGraph} {s : Surroundings} {imports : ImportTable} {references : List Reference}
  {f : Findings} {n : Node}

theorem steps_noteLookups {found : List (Path × Lookup)} (areLookups : AreLookups graph s imports n found) :
    Findings.Steps graph s imports references n f (noteLookups graph n f found) := by
  induction found generalizing f with
  | nil => exact .refl
  | cons l found ih =>
    obtain ⟨⟨narrated, same⟩, later⟩ := List.forall_mem_cons.mp areLookups
    obtain ⟨name, result⟩ := l
    obtain rfl : result = lookup graph s imports n.path name := same
    exact .head (.note (.inl ⟨rfl, narrated⟩)) (ih later)

theorem steps_resolveStep {step : NarrationStep} (narrated : ∀ text ∈ step.names, ∀ name,
      (Path.parse text).toOption = some name → name ∈ Candidate.narrationNames n) :
    Findings.Steps graph s imports references n f (resolveStep graph s imports n f step).2 := by
  have antecedents : AreLookups graph s imports n (lookups graph s imports n step.antecedents) :=
    areLookups_lookups fun text member =>
      narrated text (mem_firstOccurrences.mpr (List.mem_append_left _ member))
  have conclusions : AreLookups graph s imports n (lookups graph s imports n step.conclusions) :=
    areLookups_lookups fun text member =>
      narrated text (mem_firstOccurrences.mpr (List.mem_append_right _ member))
  rw [resolveStep, inferences_eq]
  refine ((steps_noteLookups (List.forall_mem_append.mpr ⟨antecedents, conclusions⟩)).tail (.report ?_)).tail
    (.link fun e member => ?_)
  · intro e member
    obtain ⟨target, _, inside⟩ := List.mem_flatMap.mp member
    exact isOther_conclusionErrors e inside
  · rw [kind_of_mem_inferencesOf member]
    simp

theorem steps_resolveSteps {steps : List NarrationStep} (narrated : ∀ step ∈ steps, ∀ text ∈ step.names,
      ∀ name, (Path.parse text).toOption = some name → name ∈ Candidate.narrationNames n) :
    Findings.Steps graph s imports references n f (resolveSteps graph s imports n f steps).2 := by
  induction steps generalizing f with
  | nil => exact .refl
  | cons step steps ih =>
    obtain ⟨first, later⟩ := List.forall_mem_cons.mp narrated
    exact (steps_resolveStep first).trans (ih later)

theorem steps_resolveNarration :
    Findings.Steps graph s imports references n f (resolveNarration graph s imports f n).2 := by
  rw [resolveNarration]
  cases narration : n.narration with
  | none => exact .refl
  | some steps =>
    refine steps_resolveSteps fun step member text inside name parsed => ?_
    rw [Candidate.narrationNames, narration, Option.getD_some]
    exact List.mem_flatMap.mpr ⟨step, member, List.mem_filterMap.mpr ⟨text, inside, parsed⟩⟩

theorem steps_linkReference {r : Reference} {target : Node} (declared : Nat) (written : r ∈ references)
    (atNode : r.source = n.path) (found : lookup graph s imports r.scope r.name = .found target) :
    Findings.Steps graph s imports references n f (linkReference graph n declared r.clause target f) := by
  cases clause : r.clause with
  | of => exact .single (.report isOther_targetErrors)
  | on => exact .single (.link (by simp [Edge.kind]))
  | versus =>
    rw [linkReference, linkSupposition]
    dsimp only
    split
    next isSupposition =>
      by_cases inside : graph.contains target.path = true
      · have isCase : IsCase graph s imports references n.path target.path :=
          ⟨r, written, atNode, clause, target, found, isSupposition, rfl, inside⟩
        rw [inside]
        exact .single (.innerCase isCase)
      · rw [Bool.eq_false_iff.mpr inside]
        exact .single (.outerCase inside)
    · exact .single (.report (by simp [IsOther]))
  | contra =>
    rw [linkReference, linkSupposition]
    dsimp only
    split
    · exact .single (.link (by simp [Edge.kind]))
    · exact .single (.report (by simp [IsOther]))

theorem steps_resolveReferences {declared : Nat} {own : List Reference}
    (written : ∀ r ∈ own, r ∈ references ∧ r.source = n.path) :
    Findings.Steps graph s imports references n f (resolveReferences graph s imports n declared f own).2 := by
  induction own generalizing f with
  | nil => exact .refl
  | cons r own ih =>
    obtain ⟨⟨member, atNode⟩, later⟩ := List.forall_mem_cons.mp written
    have noted : Findings.Steps graph s imports references n f (f.note graph n r.name r.clause.ghostRole
        (lookup graph s imports r.scope r.name)) := .single (.note (.inr ⟨r, member, atNode, rfl, rfl⟩))
    rw [resolveReferences]
    dsimp only
    split
    · exact noted.trans (ih later)
    next target leads =>
      have found := Lookup.eq_found_of_node? leads
      exact (noted.trans (steps_linkReference declared member atNode found)).trans (ih later)

theorem steps_referred :
    Findings.Steps graph s imports references n f (referred graph s imports references f n).2 :=
  steps_resolveNarration.trans (steps_resolveReferences fun _ => mem_ownReferences.mp)

theorem steps_foldl_claim {targets : List Node} :
    Findings.Steps graph s imports references n f (targets.foldl (claim graph s n) f) := by
  induction targets generalizing f with
  | nil => exact .refl
  | cons target targets ih =>
    refine .head ?_ ih
    rw [claim]
    split
    · exact .report (by simp [IsOther])
    · exact .claim

theorem steps_expand {targets : List Node} {steps : List ResolvedStep} :
    Findings.Steps graph s imports references n f (expand graph s n targets steps f) := by
  rw [expand]
  split
  · exact .refl
  · exact (Relation.ReflTransGen.head (.report isOther_spanErrors) steps_foldl_claim).tail
      (.link (by simp [Edge.kind]))

theorem steps_keep (steps : Option (List ResolvedStep)) :
    Findings.Steps graph s imports references n f (f.keep n.path steps) := by
  cases steps with
  | none => exact .refl
  | some steps => exact .single .keep

/-- What is left to do at a node once its references are resolved. -/
theorem steps_of_referred : Findings.Steps graph s imports references n (referred graph s imports references f n).2
    (resolveNode graph s imports references f n) := by
  rw [resolveNode_eq]
  exact steps_expand.trans (steps_keep _)

theorem steps_resolveNode :
    Findings.Steps graph s imports references n f (resolveNode graph s imports references f n) :=
  steps_referred.trans steps_of_referred

/-- What holds at the start, and is preserved by every step at every node, holds of all that is found. -/
theorem findings_induction {c : Candidate} {P : Findings → Prop} (start : P {})
    (step : ∀ n ∈ c.graph.walk.getD [], ∀ f f',
      Findings.Step c.graph s (c.imports.mergedWith s.imports) c.references n f f' → P f → P f') :
    P (findings c s) := by
  refine List.foldlRecOn _ _ start fun f holds n inside => ?_
  have run : Findings.Steps c.graph s (c.imports.mergedWith s.imports) c.references n f
      (resolveNode c.graph s (c.imports.mergedWith s.imports) c.references f n) := steps_resolveNode
  generalize resolveNode c.graph s (c.imports.mergedWith s.imports) c.references f n = f' at run ⊢
  induction run with
  | refl => exact holds
  | tail _ next ih => exact step n inside _ _ next ih

end Resolution

open Resolution

/-- A candidate that was built resolves just if nothing is found to be wrong with its nodes and no alternative
cases go round; its graph takes all edges. -/
theorem Candidate.resolve_eq {module : Path} {version : Version} {source : Source} {c : Candidate}
    (built : Candidate.build module version source = .ok c) (s : Surroundings) : c.resolve s =
      let f := findings c s
      let errors := f.errors ++ f.versus.cycles.map .cyclicCaseChain
      if errors = [] then .ok ⟨{ c.graph with edges := f.edges }, f.narrations, f.external, f.versus.components⟩
      else .error errors := by
  rw [resolve, attach_findings built]
  dsimp only
  by_cases fine : (findings c s).errors ++ (findings c s).versus.cycles.map .cyclicCaseChain = []
  · rw [if_pos fine, fine]
    rfl
  · rw [if_neg fine, if_pos]
    rw [List.isEmpty_eq_false_iff.mpr fine]
    rfl

section

variable {module : Path} {version : Version} {source : Source} {c : Candidate}
  (built : Candidate.build module version source = .ok c) {s : Surroundings}
include built

/-- What was noted of the cases of a candidate that resolves. -/
theorem Candidate.versus_of_resolve {m : ResolvedModule} (resolved : c.resolve s = .ok m) :
    m.caseGroups = (findings c s).versus.components ∧ (findings c s).versus.cycles = [] := by
  rw [resolve_eq built] at resolved
  dsimp only at resolved
  split at resolved
  next none =>
    cases resolved
    exact ⟨rfl, List.map_eq_nil_iff.mp (List.append_eq_nil_iff.mp none).2⟩
  · cases resolved

theorem Candidate.errors_of_resolve {errors : List ResolveError} (refused : c.resolve s = .error errors) :
    errors = (findings c s).errors ++ (findings c s).versus.cycles.map .cyclicCaseChain := by
  rw [resolve_eq built] at refused
  dsimp only at refused
  split at refused
  · cases refused
  · cases refused
    rfl

end

end Deductions
