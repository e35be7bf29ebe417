import Deductions.Proofs.Graph.WellFormed
import Deductions.Proofs.Retag.Lookup
import Deductions.Proofs.Unresolved

namespace Deductions

variable {f : Version → Version}

theorem retagAll_insert {refs : SortedSet NodeRef} {r : NodeRef} :
    retagAll f (SortedSet.insert refs r) = SortedSet.insert (retagAll f refs) (r.retag f) := by
  refine SortedSet.eq_of_mem_toList fun k => ?_
  simp only [mem_retagAll, SortedSet.mem_toList_insert, or_and_right, exists_or, exists_eq_left]
  exact or_congr_left eq_comm

namespace Resolution

namespace Findings

def retag (f : Version → Version) (F : Findings) : Findings :=
  { F with
    edges := F.edges.map (Edge.retag f)
    external := retagAll f F.external
    narrations := F.narrations.mapValues (List.map (ResolvedStep.retag f)) }

variable {F : Findings}

theorem addErrors_retag (errors : List ResolveError) : (F.retag f).addErrors errors = (F.addErrors errors).retag f :=
  rfl

theorem addEdges_retag (edges : List Edge) :
    (F.retag f).addEdges (edges.map (Edge.retag f)) = (F.addEdges edges).retag f := by
  simp only [addEdges, retag, List.map_append]

theorem note_retag {graph : ModuleGraph} {n t : Node} {name : Path} {role : GhostRole} :
    (F.retag f).note (graph.retag f) (n.retag f) name role (.found (t.retag f)) =
      (F.note graph n name role (.found t)).retag f := by
  rw [note, note, ModuleGraph.contains_retag, Node.path_retag]
  split
  · rfl
  · simp only [retag, Node.ref_retag, retagAll_insert]

end Findings

theorem firstBy_retag (l : List Node) :
    firstBy Node.path (l.map (Node.retag f)) = (firstBy Node.path l).map (Node.retag f) :=
  firstBy_map Node.path (Node.retag f) l

variable {graph : ModuleGraph} {s s' : Surroundings} {imports : ImportTable} {references : List Reference}
  {F : Findings} {n : Node}

/-- Every one of the names leads to a node. -/
def AreFound (found : List (Path × Lookup)) : Prop := ∀ l ∈ found, ∃ t, l.2 = .found t

def retagLookups (f : Version → Version) (found : List (Path × Lookup)) : List (Path × Lookup) :=
  found.map fun l => (l.1, l.2.retag f)

theorem nodes_retagLookups (found : List (Path × Lookup)) :
    (retagLookups f found).filterMap (fun l => l.2.node?) =
      (found.filterMap fun l => l.2.node?).map (Node.retag f) := by
  rw [retagLookups, List.filterMap_map, List.map_filterMap]
  exact List.filterMap_congr fun l _ => l.2.node?_retag

theorem noteLookups_retag {found : List (Path × Lookup)} (areFound : AreFound found) :
    noteLookups (graph.retag f) (n.retag f) (F.retag f) (retagLookups f found) =
      (noteLookups graph n F found).retag f := by
  induction found generalizing F with
  | nil => rfl
  | cons l found ih =>
    obtain ⟨⟨t, isFound⟩, later⟩ := List.forall_mem_cons.mp areFound
    obtain ⟨name, result⟩ := l
    obtain rfl : result = .found t := isFound
    have first : (F.retag f).note (graph.retag f) (n.retag f) name .narration (.found (t.retag f)) =
        (F.note graph n name .narration (.found t)).retag f := Findings.note_retag
    have rest := ih (F := F.note graph n name .narration (.found t)) later
    rw [← first] at rest
    exact rest

theorem inferences_retag {step : NarrationStep} {antecedents conclusions : List Node} :
    inferences (graph.retag f) (n.retag f) step (antecedents.map (Node.retag f)) (conclusions.map (Node.retag f)) =
      (inferences graph n step antecedents conclusions).map (Edge.retag f) := by
  rw [inferences, inferences, List.filter_map, List.flatMap_map, List.map_flatMap]
  simp only [List.map_map, Function.comp_def, Node.path_retag, ModuleGraph.contains_retag]
  rfl

section

variable (retagged : IsRetagged f graph s s') (unpinned : imports.IsUnpinned)
include retagged unpinned

theorem lookups_retag {names : List String} (finds : ∀ text ∈ names, ∀ name,
      (Path.parse text).toOption = some name → ∃ t, lookup graph s imports n.path name = .found t) :
    AreFound (lookups graph s imports n names) ∧
      lookups (graph.retag f) s' imports (n.retag f) names = retagLookups f (lookups graph s imports n names) := by
  constructor
  · intro l member
    obtain ⟨text, inside, parsed, same⟩ := mem_lookups.mp member
    rw [same]
    exact finds text inside l.1 parsed
  · rw [lookups, lookups, retagLookups, List.map_filterMap]
    refine List.filterMap_congr fun text inside => ?_
    cases parsed : (Path.parse text).toOption with
    | none => rfl
    | some name =>
      obtain ⟨t, found⟩ := finds text inside name parsed
      simp only [Option.map_some, Node.path_retag, found, retagged.lookup unpinned found, Lookup.retag]

theorem resolveStep_retag {step : NarrationStep} (finds : ∀ text ∈ step.names, ∀ name,
      (Path.parse text).toOption = some name → ∃ t, lookup graph s imports n.path name = .found t) :
    resolveStep (graph.retag f) s' imports (n.retag f) (F.retag f) step =
      ((resolveStep graph s imports n F step).1.retag f, (resolveStep graph s imports n F step).2.retag f) := by
  have inAntecedents : ∀ text ∈ step.antecedents, text ∈ step.names := fun text member =>
    mem_firstOccurrences.mpr (List.mem_append_left _ member)
  have inConclusions : ∀ text ∈ step.conclusions, text ∈ step.names := fun text member =>
    mem_firstOccurrences.mpr (List.mem_append_right _ member)
  obtain ⟨foundA, antecedents⟩ := lookups_retag retagged unpinned fun text member =>
    finds text (inAntecedents text member)
  obtain ⟨foundC, conclusions⟩ := lookups_retag retagged unpinned fun text member =>
    finds text (inConclusions text member)
  have both : retagLookups f (lookups graph s imports n step.antecedents) ++
      retagLookups f (lookups graph s imports n step.conclusions) =
        retagLookups f (lookups graph s imports n step.antecedents ++ lookups graph s imports n step.conclusions) :=
    List.map_append.symm
  have noted : noteLookups (graph.retag f) (n.retag f) (F.retag f) _ = _ :=
    noteLookups_retag (List.forall_mem_append.mpr ⟨foundA, foundC⟩)
  have errors : ∀ targets : List Node,
      (targets.map (Node.retag f)).flatMap (conclusionErrors (n.retag f) step) =
        targets.flatMap (conclusionErrors n step) := fun targets => by
    rw [List.flatMap_map]
    rfl
  simp only [resolveStep, antecedents, conclusions, both, noted, nodes_retagLookups, firstBy_retag, errors,
    inferences_retag, Findings.addErrors_retag, Findings.addEdges_retag]
  simp only [ResolvedStep.retag, List.map_map]
  rfl

theorem resolveSteps_retag {steps : List NarrationStep} (finds : ∀ step ∈ steps, ∀ text ∈ step.names, ∀ name,
      (Path.parse text).toOption = some name → ∃ t, lookup graph s imports n.path name = .found t) :
    resolveSteps (graph.retag f) s' imports (n.retag f) (F.retag f) steps =
      ((resolveSteps graph s imports n F steps).1.map (ResolvedStep.retag f),
        (resolveSteps graph s imports n F steps).2.retag f) := by
  induction steps generalizing F with
  | nil => rfl
  | cons step steps ih =>
    obtain ⟨first, later⟩ := List.forall_mem_cons.mp finds
    simp only [resolveSteps, resolveStep_retag retagged unpinned first, ih later, List.map_cons]

theorem resolveNarration_retag (finds : ∀ name ∈ Candidate.narrationNames n,
      ∃ t, lookup graph s imports n.path name = .found t) :
    resolveNarration (graph.retag f) s' imports (F.retag f) (n.retag f) =
      ((resolveNarration graph s imports F n).1.map (List.map (ResolvedStep.retag f)),
        (resolveNarration graph s imports F n).2.retag f) := by
  have same : (n.retag f).narration = n.narration := rfl
  rw [resolveNarration, resolveNarration, same]
  cases narration : n.narration with
  | none => rfl
  | some steps =>
    have finds : ∀ step ∈ steps, ∀ text ∈ step.names, ∀ name, (Path.parse text).toOption = some name →
        ∃ t, lookup graph s imports n.path name = .found t := by
      intro step member text inside name parsed
      refine finds name ?_
      rw [Candidate.narrationNames, narration, Option.getD_some]
      exact List.mem_flatMap.mpr ⟨step, member, List.mem_filterMap.mpr ⟨text, inside, parsed⟩⟩
    simp only [resolveSteps_retag retagged unpinned finds, Option.map_some]

omit retagged unpinned in
theorem linkReference_retag {target : Node} {declared : Nat} {clause : Clause} :
    linkReference (graph.retag f) (n.retag f) declared clause (target.retag f) (F.retag f) =
      (linkReference graph n declared clause target F).retag f := by
  have linked : ∀ edge, linkSupposition (graph.retag f) (n.retag f) (target.retag f) clause (edge.retag f)
      (F.retag f) = (linkSupposition graph n target clause edge F).retag f := by
    intro edge
    have added : (F.retag f).addEdges [edge.retag f] = (F.addEdges [edge]).retag f := Findings.addEdges_retag [edge]
    rw [linkSupposition, linkSupposition, Node.kind_retag, ModuleGraph.contains_retag, Node.path_retag, added]
    split
    · dsimp only
      split <;> rfl
    · rfl
  cases clause with
  | of => rfl
  | on => exact Findings.addEdges_retag [.annotates n.ref target.ref]
  | versus => exact linked (.alternativeCase n.ref target.ref)
  | contra => exact linked (.contradiction n.ref target.ref)

theorem resolveReferences_retag {declared : Nat} {own : List Reference}
    (finds : ∀ r ∈ own, ∃ t, lookup graph s imports r.scope r.name = .found t) :
    resolveReferences (graph.retag f) s' imports (n.retag f) declared (F.retag f) own =
      ((resolveReferences graph s imports n declared F own).1.map (Node.retag f),
        (resolveReferences graph s imports n declared F own).2.retag f) ∧
      ∀ t ∈ (resolveReferences graph s imports n declared F own).1, t.version = graph.version := by
  induction own generalizing F with
  | nil => exact ⟨rfl, fun _ member => nomatch member⟩
  | cons r own ih =>
    obtain ⟨⟨t, found⟩, later⟩ := List.forall_mem_cons.mp finds
    have found' := retagged.lookup unpinned found
    obtain ⟨rest, versions⟩ := ih (F := linkReference graph n declared r.clause t
      (F.note graph n r.name r.clause.ghostRole (.found t))) later
    simp only [resolveReferences, found, found', Lookup.node?, Findings.note_retag, linkReference_retag, rest]
    constructor
    · split <;> rfl
    · intro target member
      split at member
      · rcases List.mem_cons.mp member with rfl | member
        · exact retagged.version_of_found unpinned found
        · exact versions target member
      · exact versions target member

omit unpinned in
theorem claim_retag {target : Node} :
    claim (graph.retag f) s' (n.retag f) (F.retag f) (target.retag f) = (claim graph s n F target).retag f := by
  have expander : s'.library.expanderOf target.path (graph.retag f).version (graph.retag f).module =
      s.library.expanderOf target.path graph.version graph.module := retagged.expander target.path
  have claimed : (F.retag f).claimed = F.claimed := rfl
  rw [claim, claim, Node.path_retag, Node.path_retag, claimed, expander]
  split <;> rfl

omit unpinned in
theorem foldl_claim_retag {targets : List Node} :
    (targets.map (Node.retag f)).foldl (claim (graph.retag f) s' (n.retag f)) (F.retag f) =
      (targets.foldl (claim graph s n) F).retag f := by
  induction targets generalizing F with
  | nil => rfl
  | cons target targets ih => rw [List.map_cons, List.foldl_cons, List.foldl_cons, claim_retag retagged, ih]

omit unpinned in
theorem spanErrors_retag {targets : List Node} (atVersion : ∀ t ∈ targets, t.version = graph.version) :
    spanErrors (graph.retag f) s' (n.retag f) (targets.map (Node.retag f)) = spanErrors graph s n targets := by
  have around : (targets.map (Node.retag f)).map (topLevel (graph.retag f) s') = targets.map (topLevel graph s) := by
    rw [List.map_map]
    exact List.map_congr_left fun t member => retagged.topLevel (atVersion t member)
  rw [spanErrors, spanErrors, around, List.map_map]
  rfl

omit retagged unpinned in
theorem isNarrated_retag {steps : List ResolvedStep} {targets : List Node} :
    isNarrated (steps.map (ResolvedStep.retag f)) (targets.map (Node.retag f)) = isNarrated steps targets := by
  simp only [isNarrated, ResolvedStep.retag, List.any_map, Function.comp_def, NodeRef.path_retag, Node.path_retag]

omit unpinned in
theorem expand_retag {targets : List Node} {steps : List ResolvedStep}
    (atVersion : ∀ t ∈ targets, t.version = graph.version) :
    expand (graph.retag f) s' (n.retag f) (targets.map (Node.retag f)) (steps.map (ResolvedStep.retag f))
      (F.retag f) = (expand graph s n targets steps F).retag f := by
  rw [expand, expand, List.isEmpty_map]
  split
  · rfl
  · simp only [spanErrors_retag retagged atVersion, Findings.addErrors_retag, foldl_claim_retag retagged,
      isNarrated_retag, List.map_map]
    have edge : ∀ origin, [Edge.expansion (n.retag f).ref (targets.map (Node.ref ∘ Node.retag f)) origin] =
        [Edge.expansion n.ref (targets.map Node.ref) origin].map (Edge.retag f) := fun origin => by
      rw [List.map_singleton, Edge.retag, List.map_map]
      rfl
    rw [edge, Findings.addEdges_retag]

omit retagged unpinned in
theorem Findings.keep_retag {owner : Path} {steps : Option (List ResolvedStep)} :
    (F.retag f).keep owner (steps.map (List.map (ResolvedStep.retag f))) = (F.keep owner steps).retag f := by
  cases steps with
  | none => rfl
  | some steps => simp only [Option.map_some, keep, retag, SortedMap.mapValues_insert]

theorem referred_retag (finds : ∀ scope name, Mentions references n scope name →
      ∃ t, lookup graph s imports scope name = .found t) :
    referred (graph.retag f) s' imports references (F.retag f) (n.retag f) =
      ((referred graph s imports references F n).1.map (Node.retag f),
        (referred graph s imports references F n).2.retag f) ∧
      ∀ t ∈ (referred graph s imports references F n).1, t.version = graph.version := by
  have narration := resolveNarration_retag (F := F) retagged unpinned fun name member =>
    finds n.path name (.inl ⟨rfl, member⟩)
  rw [referred, referred, narration]
  refine resolveReferences_retag retagged unpinned fun r member => ?_
  obtain ⟨member, own⟩ := List.mem_filter.mp member
  exact finds r.scope r.name (.inr ⟨r, member, beq_iff_eq.mp own, rfl, rfl⟩)

theorem resolveNode_retag (finds : ∀ scope name, Mentions references n scope name →
      ∃ t, lookup graph s imports scope name = .found t) :
    resolveNode (graph.retag f) s' imports references (F.retag f) (n.retag f) =
      (resolveNode graph s imports references F n).retag f := by
  have narration := resolveNarration_retag (F := F) retagged unpinned fun name member =>
    finds n.path name (.inl ⟨rfl, member⟩)
  obtain ⟨references, versions⟩ := referred_retag (F := F) retagged unpinned finds
  have steps : ((resolveNarration graph s imports F n).1.map (List.map (ResolvedStep.retag f))).getD [] =
      ((resolveNarration graph s imports F n).1.getD []).map (ResolvedStep.retag f) := by
    cases (resolveNarration graph s imports F n).1 <;> rfl
  rw [resolveNode_eq, resolveNode_eq]
  simp only [narration, Node.path_retag, references, firstBy_retag, steps]
  rw [expand_retag retagged fun t member => versions t (mem_of_mem_firstBy member), Findings.keep_retag]

theorem foldl_resolveNode_retag {nodes : List Node} (finds : ∀ n ∈ nodes, ∀ scope name,
      Mentions references n scope name → ∃ t, lookup graph s imports scope name = .found t) :
    (nodes.map (Node.retag f)).foldl (resolveNode (graph.retag f) s' imports references) (F.retag f) =
      (nodes.foldl (resolveNode graph s imports references) F).retag f := by
  induction nodes generalizing F with
  | nil => rfl
  | cons n nodes ih =>
    obtain ⟨first, later⟩ := List.forall_mem_cons.mp finds
    rw [List.map_cons, List.foldl_cons, List.foldl_cons, resolveNode_retag retagged unpinned first, ih later]

end

end Resolution

open Resolution

def ResolvedModule.retag (f : Version → Version) (m : ResolvedModule) : ResolvedModule :=
  { m with
    graph := m.graph.retag f
    narrations := m.narrations.mapValues (List.map (ResolvedStep.retag f))
    external := retagAll f m.external }

/-- Where nothing is found wrong and there is no previous version, every name leads to a node. -/
theorem Candidate.exists_found {c : Candidate} {s : Surroundings} (noPrevious : s.previous = none)
    (noErrors : (findings c s).errors = []) {n : Node} (inside : n ∈ c.graph.walk.getD []) {scope name : Path}
    (mentions : Mentions c.references n scope name) :
    ∃ t, lookup c.graph s (c.imports.mergedWith s.imports) scope name = .found t := by
  cases result : lookup c.graph s (c.imports.mergedWith s.imports) scope name with
  | found t => exact ⟨t, rfl⟩
  | ghost target =>
    rw [lookup, noPrevious] at result
    split at result <;> cases result
  | missing =>
    have misses : (findings c s).Misses n.path name :=
      misses_findings.mpr ⟨n, inside, rfl, scope, mentions, result⟩
    rw [Findings.Misses, noErrors] at misses
    cases misses

theorem Candidate.findings_retag {c : Candidate} {s s' : Surroundings} (retagged : IsRetagged f c.graph s s')
    (imports : s'.imports = s.imports) (unpinned : (c.imports.mergedWith s.imports).IsUnpinned)
    (noPrevious : s.previous = none) (noErrors : (findings c s).errors = []) :
    findings (c.retag f) s' = (findings c s).retag f := by
  have nodes : ((c.retag f).graph.walk).getD [] = (c.graph.walk.getD []).map (Node.retag f) := by
    rw [Candidate.retag, ModuleGraph.walk_retag]
    cases c.graph.walk <;> rfl
  rw [findings, nodes, imports]
  exact foldl_resolveNode_retag (F := {}) retagged unpinned fun n inside scope name mentions =>
    Candidate.exists_found noPrevious noErrors inside mentions

/-- A module that resolves without a previous version resolves to the same under other tags. -/
theorem Candidate.resolve_retag {module : Path} {version : Version} {source : Source} {c : Candidate}
    {s s' : Surroundings} {m : ResolvedModule} (built : Candidate.build module version source = .ok c)
    (retagged : IsRetagged f c.graph s s') (imports : s'.imports = s.imports) (unpinned : s.imports.IsUnpinned)
    (noPrevious : s.previous = none) (resolved : c.resolve s = .ok m) :
    (c.retag f).resolve s' = .ok (m.retag f) := by
  have built' : Candidate.build module (f version) source = .ok (c.retag f) := by
    rw [Candidate.build_retag, built, Except.map]
  have merged := (Candidate.isUnpinned_of_build built).mergedWith unpinned
  have found := findings_retag retagged imports merged noPrevious (Candidate.resolve_eq_ok resolved).1
  have errors : ((findings c s).retag f).errors = (findings c s).errors := rfl
  have versus : ((findings c s).retag f).versus = (findings c s).versus := rfl
  rw [Candidate.resolve, attach_findings built] at resolved
  rw [Candidate.resolve, attach_findings built', found, errors, versus]
  dsimp only at resolved ⊢
  split at resolved
  · cases resolved
  next noErrors =>
    rw [if_neg noErrors]
    cases resolved
    rfl

end Deductions
