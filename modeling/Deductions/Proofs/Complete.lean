import Deductions.Proofs.Narration
import Deductions.Proofs.Typing

namespace Deductions

theorem flatMap_eq_of_unique {α β : Type} {f : α → List β} {l : List α} (nodup : l.Nodup) {a : α} (member : a ∈ l)
    (others : ∀ b ∈ l, b ≠ a → f b = []) : l.flatMap f = f a := by
  obtain ⟨before, after, rfl⟩ := List.append_of_mem member
  obtain ⟨_, nodup, apart⟩ := List.nodup_append.mp nodup
  have first : before.flatMap f = [] := List.flatMap_eq_nil_iff.mpr fun b inside =>
    others b (List.mem_append_left _ inside) (apart b inside a List.mem_cons_self)
  have last : after.flatMap f = [] := by
    refine List.flatMap_eq_nil_iff.mpr fun b inside => others b ?_ ?_
    · exact List.mem_append_right _ (List.mem_cons_of_mem _ inside)
    · rintro rfl
      exact (List.nodup_cons.mp nodup).1 inside
  rw [List.flatMap_append, first, List.flatMap_cons, last, List.append_nil, List.nil_append]

/-- Whether the edge is an inference of the step of the narration of `owner`. -/
def Edge.isInferenceAt (owner : Path) (index : Nat) : Edge → Bool
  | .inference _ _ owner' index' => owner' == owner && index' == index
  | _ => false

theorem Edge.kind_of_isInferenceAt {owner : Path} {index : Nat} {e : Edge}
    (holds : e.isInferenceAt owner index = true) : e.kind = .inference := by
  cases e <;> first | rfl | cases holds

theorem Edge.isGhost_of_isInferenceAt {owner : Path} {index : Nat} {e : Edge}
    (holds : e.isInferenceAt owner index = true) : e.isGhost = false := by
  cases e <;> first | rfl | cases holds

/-- The references are those of the list in order, of equal paths the first. They are all that it has just if
it has no path at two versions. -/
structure AreFirst (refs found : List NodeRef) : Prop where
  byPath : refs = firstBy NodeRef.path found
  all_iff : refs = firstOccurrences found ↔ ∀ a ∈ found, ∀ b ∈ found, a.path = b.path → a = b

theorem areFirst_map (nodes : List Node) : AreFirst ((firstBy Node.path nodes).map Node.ref) (nodes.map Node.ref) := by
  have same : (firstBy Node.path nodes).map Node.ref = firstBy NodeRef.path (nodes.map Node.ref) :=
    (firstBy_map NodeRef.path Node.ref nodes).symm
  exact ⟨same, same ▸ firstBy_eq_firstOccurrences_iff⟩

theorem AreFirst.nodup {refs found : List NodeRef} (first : AreFirst refs found) : refs.Nodup := by
  rw [first.byPath]
  exact .of_map NodeRef.path (nodup_firstBy NodeRef.path found)

namespace Resolution

/-- Each pair is inferred once. -/
theorem nodup_inferencesOf {graph : ModuleGraph} {owner : Path} {step : ResolvedStep}
    (antecedents : step.antecedents.Nodup) (conclusions : step.conclusions.Nodup) :
    (inferencesOf graph owner step).Nodup := by
  rw [inferencesOf, List.nodup_flatMap]
  refine ⟨fun a _ => conclusions.map fun c c' same => ?_, (antecedents.filter _).imp fun different e first second => ?_⟩
  · cases same
    rfl
  · obtain ⟨c, _, rfl⟩ := List.mem_map.mp first
    obtain ⟨c', _, same⟩ := List.mem_map.mp second
    cases same
    exact different rfl

theorem filter_inferencesOf {graph : ModuleGraph} {owner : Path} {index : Nat} {step : ResolvedStep}
    (own : step.index = index) :
    (inferencesOf graph owner step).filter (Edge.isInferenceAt owner index) = inferencesOf graph owner step := by
  subst own
  refine List.filter_eq_self.mpr fun e member => ?_
  obtain ⟨a, _, member⟩ := List.mem_flatMap.mp member
  obtain ⟨c, _, rfl⟩ := List.mem_map.mp member
  simp [Edge.isInferenceAt]

/-- An inference tells the step that it is of. -/
theorem eq_of_mem_inferencesOf {graph : ModuleGraph} {owner owner' : Path} {index : Nat} {step : ResolvedStep}
    {e : Edge} (member : e ∈ inferencesOf graph owner step) (holds : e.isInferenceAt owner' index = true) :
    owner = owner' ∧ step.index = index := by
  obtain ⟨a, _, member⟩ := List.mem_flatMap.mp member
  obtain ⟨c, _, rfl⟩ := List.mem_map.mp member
  rw [Edge.isInferenceAt, Bool.and_eq_true, beq_iff_eq, beq_iff_eq] at holds
  exact holds

theorem originOf_eq_narrated_iff {steps : List ResolvedStep} {targets : List NodeRef} :
    originOf steps targets = .narrated ↔
      ∃ step ∈ steps, ∃ r ∈ step.conclusions, ∃ t ∈ targets, t.path = r.path := by
  rw [originOf]
  split
  next narrated => simpa [List.any_eq_true] using narrated
  next declared => simpa [List.any_eq_true] using declared

variable {graph : ModuleGraph} {s : Surroundings} {imports : ImportTable} {references : List Reference} {n : Node}

theorem not_isInferenceAt_of_mem_ghostOf {role : GhostRole} {result : Lookup} {e : Edge}
    (member : e ∈ ghostOf n role result) {owner : Path} {index : Nat} : ¬ e.isInferenceAt owner index = true := by
  intro holds
  have ghost := isGhost_of_mem_ghostOf member
  rw [Edge.isGhost_of_isInferenceAt holds] at ghost
  cases ghost

theorem filter_stepLinks {owner : Path} {index : Nat} {step : NarrationStep} :
    (stepLinks graph s imports n step).filter (Edge.isInferenceAt owner index) =
      (inferencesOf graph n.path (resolvedStep graph s imports n step)).filter (Edge.isInferenceAt owner index) := by
  rw [stepLinks, List.filter_append, List.filter_eq_nil_iff.mpr, List.nil_append]
  intro e member holds
  obtain ⟨l, _, ghost⟩ := List.mem_flatMap.mp member
  exact not_isInferenceAt_of_mem_ghostOf ghost holds

/-- The inferences of a node are those of its steps. -/
theorem filter_nodeLinks {owner : Path} {index : Nat} :
    (nodeLinks graph s imports references n).filter (Edge.isInferenceAt owner index) =
      (n.narration.getD []).flatMap fun step =>
        (inferencesOf graph n.path (resolvedStep graph s imports n step)).filter (Edge.isInferenceAt owner index) := by
  have clauses : ((ownReferences references n).flatMap (referenceLinks graph s imports n)).filter
      (Edge.isInferenceAt owner index) = [] := by
    refine List.filter_eq_nil_iff.mpr fun e member holds => ?_
    obtain ⟨r, _, member⟩ := List.mem_flatMap.mp member
    rcases mem_clauseLinks.mp member with ⟨t, _, linked⟩ | ghost
    · exact (isPlain_clauseEdge? linked).2.1 (Edge.kind_of_isInferenceAt holds)
    · exact not_isInferenceAt_of_mem_ghostOf ghost holds
  have expansions : ∀ steps targets, (expansionOfAll n steps targets).filter (Edge.isInferenceAt owner index) = [] := by
    intro steps targets
    rw [expansionOfAll]
    split <;> rfl
  rw [nodeLinks, List.filter_append, List.filter_append, clauses, expansions, List.append_nil, List.append_nil,
    List.filter_flatMap]
  exact List.flatMap_congr fun step _ => filter_stepLinks

section

variable (graph s imports references n)

/-- The nodes that names in the narration of `n` lead to. -/
def foundNodes (names : List String) : List Node := (lookups graph s imports n names).filterMap fun l => l.2.node?

/-- The step in the narration of `n` says what its names lead to. -/
structure IsStepOf (step : NarrationStep) (r : ResolvedStep) : Prop where
  index : r.index = step.index
  connective : r.connective = step.connective
  antecedents : AreFirst r.antecedents ((foundNodes graph s imports n step.antecedents).map Node.ref)
  conclusions : AreFirst r.conclusions ((foundNodes graph s imports n step.conclusions).map Node.ref)

end

theorem isStepOf_resolvedStep (step : NarrationStep) :
    IsStepOf graph s imports n step (resolvedStep graph s imports n step) :=
  ⟨rfl, rfl, areFirst_map _, areFirst_map _⟩

end Resolution

open Resolution

/-- The narrations and edges of the module account for all names of the candidate. -/
structure ResolvedModule.IsComplete (m : ResolvedModule) (c : Candidate) (s : Surroundings) : Prop where
  /-- Only edges are added to the graph. -/
  graph : m.graph = { c.graph with edges := m.graph.edges }
  narrated : ∀ path, (∃ steps, m.narrations.find? path = some steps) ↔
    ∃ n written, c.graph.node? path = some n ∧ n.narration = some written
  steps : ∀ n written, c.graph.node? n.path = some n → n.narration = some written →
    ∃ steps, m.narrations.find? n.path = some steps ∧
      List.Forall₂ (IsStepOf c.graph s (c.imports.mergedWith s.imports) n) written steps
  /-- A name of a narration that leads to no node is lost. -/
  names : ∀ n written, c.graph.node? n.path = some n → n.narration = some written → ∀ step ∈ written,
    ∀ text ∈ step.antecedents ++ step.conclusions, ∃ name, Path.parse text = .ok name ∧
      ((∃ t, lookup c.graph s (c.imports.mergedWith s.imports) n.path name = .found t) ∨
        ∃ target, lookup c.graph s (c.imports.mergedWith s.imports) n.path name = .ghost target ∧
          .ghost n.ref target .narration ∈ m.graph.edges)
  /-- The inferences of a step, each once. -/
  inferences : ∀ owner steps, m.narrations.find? owner = some steps → ∀ step ∈ steps,
    (m.graph.edges.filter (Edge.isInferenceAt owner step.index)).Nodup ∧
    m.graph.edges.filter (Edge.isInferenceAt owner step.index) =
      (step.antecedents.filter fun r => c.graph.contains r.path).flatMap fun a =>
        step.conclusions.map fun r => .inference a r owner step.index
  /-- Every inference is one of a step. -/
  inferred : ∀ e ∈ m.graph.edges, e.kind = .inference → ∃ owner steps, m.narrations.find? owner = some steps ∧
    ∃ step ∈ steps, e.isInferenceAt owner step.index = true
  clauses : ∀ r ∈ c.references, ∃ n, c.graph.node? r.source = some n ∧
    ((∃ t, lookup c.graph s (c.imports.mergedWith s.imports) r.scope r.name = .found t ∧
        ∀ e, clauseEdge? n.ref t.ref r.clause = some e → e ∈ m.graph.edges) ∨
      ∃ target, lookup c.graph s (c.imports.mergedWith s.imports) r.scope r.name = .ghost target ∧
        .ghost n.ref target r.clause.ghostRole ∈ m.graph.edges)
  expanded : ∀ n, c.graph.node? n.path = some n →
    ((∃ targets origin, .expansion n.ref targets origin ∈ m.graph.edges) ↔ ∃ r ∈ c.references, r.clause = .of ∧
      r.source = n.path ∧ ∃ t, lookup c.graph s (c.imports.mergedWith s.imports) r.scope r.name = .found t)
  expansions : ∀ source targets origin, .expansion source targets origin ∈ m.graph.edges →
    ∃ n, c.graph.node? n.path = some n ∧ source = n.ref ∧ AreFirst targets ((namedTargets c.graph s
      (c.imports.mergedWith s.imports) (ownReferences c.references n)).map Node.ref) ∧
    (origin = .narrated ↔ ∃ steps, m.narrations.find? n.path = some steps ∧
      ∃ step ∈ steps, ∃ r ∈ step.conclusions, ∃ t ∈ targets, t.path = r.path)

section

variable {module : Path} {version : Version} {source : Source} {c : Candidate}
  (built : Candidate.build module version source = .ok c) {s : Surroundings} {m : ResolvedModule}
  (resolved : c.resolve s = .ok m)
include built

/-- The narration of a node was read from its field. -/
theorem Candidate.exists_parseNarration (wellFormed : source.IsWellFormed) {n : Node}
    (stored : c.graph.node? n.path = some n) {written : List NarrationStep} (narration : n.narration = some written) :
    ∃ text, parseNarration n.path text = .ok written := by
  have inside := (mem_walk_iff built).mpr stored
  rw [(isOutline_of_build wellFormed built).walk_eq, Option.getD_some] at inside
  obtain ⟨p, _, rfl⟩ := List.mem_map.mp inside
  rw [PlacedBlock.node, readNarration] at narration
  split at narration
  · obtain ⟨text, _, read⟩ := Option.bind_eq_some_iff.mp narration
    exact ⟨text, Batch.toOption_eq_some_iff.mp read⟩
  · cases narration

/-- The names of a narration are paths. -/
theorem Candidate.areNames_of_narration (wellFormed : source.IsWellFormed) {n : Node}
    (stored : c.graph.node? n.path = some n) {written : List NarrationStep} (narration : n.narration = some written) :
    ∀ step ∈ written, AreNames (step.antecedents ++ step.conclusions) := by
  obtain ⟨text, read⟩ := exists_parseNarration built wellFormed stored narration
  intro step member
  obtain ⟨antecedents, conclusions⟩ := (parseNarration_sound read).2 step member
  exact antecedents.append conclusions

/-- The steps of a narration are told apart by their indices. -/
theorem Candidate.nodup_indices_of_narration (wellFormed : source.IsWellFormed) {n : Node}
    (stored : c.graph.node? n.path = some n) {written : List NarrationStep} (narration : n.narration = some written) :
    (written.map NarrationStep.index).Nodup := by
  obtain ⟨text, read⟩ := exists_parseNarration built wellFormed stored narration
  rw [(parseNarration_sound read).1]
  exact List.nodup_range'

include resolved

/-- The inferences of a step are exactly those that the resolved step says. -/
theorem Candidate.filter_isInferenceAt (wellFormed : source.IsWellFormed) {n : Node}
    (stored : c.graph.node? n.path = some n) {written : List NarrationStep} (narration : n.narration = some written)
    {step : NarrationStep} (member : step ∈ written) :
    m.graph.edges.filter (Edge.isInferenceAt n.path step.index) =
      inferencesOf c.graph n.path (resolvedStep c.graph s (c.imports.mergedWith s.imports) n step) := by
  have indices := nodup_indices_of_narration built wellFormed stored narration
  -- no other node has an inference in the narration of the node, and none of its other steps has the index
  have otherNodes : ∀ n' ∈ c.graph.walk.getD [], n' ≠ n →
      (nodeLinks c.graph s (c.imports.mergedWith s.imports) c.references n').filter
        (Edge.isInferenceAt n.path step.index) = [] := by
    intro n' inside different
    rw [filter_nodeLinks, List.flatMap_eq_nil_iff]
    refine fun step' _ => List.filter_eq_nil_iff.mpr fun e inferred holds => different ?_
    have same := (eq_of_mem_inferencesOf inferred holds).1
    have stored' := (mem_walk_iff built).mp inside
    rw [same, stored] at stored'
    exact (Option.some.inj stored').symm
  have otherSteps : ∀ step' ∈ written, step' ≠ step →
      (inferencesOf c.graph n.path (resolvedStep c.graph s (c.imports.mergedWith s.imports) n step')).filter
        (Edge.isInferenceAt n.path step.index) = [] := by
    refine fun step' member' different => List.filter_eq_nil_iff.mpr fun e inferred holds => different ?_
    exact List.inj_on_of_nodup_map indices member' member (eq_of_mem_inferencesOf inferred holds).2
  rw [(settlesTo built resolved).graph, filter_addLinks (fun _ => Edge.isGhost_of_isInferenceAt), List.filter_nil,
    List.nil_append, List.filter_flatMap, flatMap_eq_of_unique (.of_map _ (nodup_walk built))
      ((mem_walk_iff built).mpr stored) otherNodes, filter_nodeLinks, narration, Option.getD_some,
    flatMap_eq_of_unique (.of_map _ indices) member otherSteps]
  exact filter_inferencesOf rfl

theorem Candidate.exists_step_of_inference {e : Edge} (member : e ∈ m.graph.edges) (inference : e.kind = .inference) :
    ∃ owner steps, m.narrations.find? owner = some steps ∧
      ∃ step ∈ steps, e.isInferenceAt owner step.index = true := by
  have settles := settlesTo built resolved
  obtain ⟨n, inside, member⟩ := settles.mem_edges.mp member
  obtain ⟨step, written, inferred⟩ := exists_step_of_mem_nodeLinks inference member
  rw [← filter_inferencesOf rfl] at inferred
  have narrated := settles.narrated n inside
  rw [resolvedNarration] at narrated
  cases narration : n.narration with
  | none =>
    rw [narration] at written
    cases written
  | some steps =>
    rw [narration] at written narrated
    exact ⟨n.path, _, narrated, _, List.mem_map_of_mem written, (List.mem_filter.mp inferred).2⟩

/-- A name of a narration that leads to no node makes a ghost edge. -/
theorem Candidate.ghost_of_name (wellFormed : source.IsWellFormed) {n : Node}
    (stored : c.graph.node? n.path = some n) {written : List NarrationStep} (narration : n.narration = some written)
    {step : NarrationStep} (member : step ∈ written) {text : String}
    (named : text ∈ step.antecedents ++ step.conclusions) : ∃ name, Path.parse text = .ok name ∧
      ((∃ t, lookup c.graph s (c.imports.mergedWith s.imports) n.path name = .found t) ∨
        ∃ target, lookup c.graph s (c.imports.mergedWith s.imports) n.path name = .ghost target ∧
          .ghost n.ref target .narration ∈ m.graph.edges) := by
  have settles := settlesTo built resolved
  have inside := (mem_walk_iff built).mpr stored
  obtain ⟨name, parsed⟩ := areNames_of_narration built wellFormed stored narration step member text named
  have parsed' : (Path.parse text).toOption = some name := by rw [parsed]; rfl
  have narrated : name ∈ narrationNames n := by
    rw [narrationNames, narration, Option.getD_some]
    exact List.mem_flatMap.mpr ⟨step, member, List.mem_filterMap.mpr ⟨text, mem_firstOccurrences.mpr named, parsed'⟩⟩
  refine ⟨name, parsed, ?_⟩
  cases result : lookup c.graph s (c.imports.mergedWith s.imports) n.path name with
  | found t => exact .inl ⟨t, rfl⟩
  | ghost target =>
    exact .inr ⟨target, rfl, settles.mem_edges.mpr ⟨n, inside, ghost_mem_nodeLinks narrated result⟩⟩
  | missing => exact absurd result (settles.leads n inside n.path name (.inl ⟨rfl, narrated⟩))

/-- A name of a clause makes the edge of the clause, or a ghost edge. -/
theorem Candidate.edge_of_reference (wellFormed : source.IsWellFormed) {r : Reference} (member : r ∈ c.references) :
    ∃ n, c.graph.node? r.source = some n ∧
    ((∃ t, lookup c.graph s (c.imports.mergedWith s.imports) r.scope r.name = .found t ∧
        ∀ e, clauseEdge? n.ref t.ref r.clause = some e → e ∈ m.graph.edges) ∨
      ∃ target, lookup c.graph s (c.imports.mergedWith s.imports) r.scope r.name = .ghost target ∧
        .ghost n.ref target r.clause.ghostRole ∈ m.graph.edges) := by
  have settles := settlesTo built resolved
  obtain ⟨n, inside, own⟩ := exists_mem_ownReferences wellFormed built member
  have atNode := (mem_ownReferences.mp own).2
  have made : ∀ e ∈ referenceLinks c.graph s (c.imports.mergedWith s.imports) n r, e ∈ m.graph.edges := by
    intro e linked
    exact settles.mem_edges.mpr ⟨n, inside, mem_nodeLinks.mpr (.inr (.inl ⟨r, own, linked⟩))⟩
  refine ⟨n, atNode ▸ (mem_walk_iff built).mp inside, ?_⟩
  cases result : lookup c.graph s (c.imports.mergedWith s.imports) r.scope r.name with
  | found t =>
    refine .inl ⟨t, rfl, fun e edge => made e ?_⟩
    rw [referenceLinks, result, clauseLinks, edge]
    exact List.mem_singleton_self e
  | ghost target =>
    refine .inr ⟨target, rfl, made _ ?_⟩
    rw [referenceLinks, result]
    exact List.mem_singleton_self _
  | missing => exact absurd result (settles.leads n inside r.scope r.name (.inr ⟨r, member, atNode, rfl, rfl⟩))

/-- A node has an expansion just if a name of its `of` clause leads to a node. -/
theorem Candidate.exists_expansion_iff {n : Node} (stored : c.graph.node? n.path = some n) :
    (∃ targets origin, .expansion n.ref targets origin ∈ m.graph.edges) ↔ ∃ r ∈ c.references, r.clause = .of ∧
      r.source = n.path ∧ ∃ t, lookup c.graph s (c.imports.mergedWith s.imports) r.scope r.name = .found t := by
  have settles := settlesTo built resolved
  constructor
  · rintro ⟨targets, origin, member⟩
    obtain ⟨n', _, member⟩ := settles.mem_edges.mp member
    obtain ⟨some, same, _⟩ := expansion_mem_nodeLinks_iff.mp member
    obtain ⟨t, expanded⟩ := List.exists_mem_of_ne_nil _ some
    obtain ⟨r, own, isOf, found⟩ := mem_expandedBy expanded
    obtain ⟨written, atNode⟩ := mem_ownReferences.mp own
    have path : n.path = n'.path := congrArg NodeRef.path same
    exact ⟨r, written, isOf, atNode.trans path.symm, t, found⟩
  · rintro ⟨r, written, isOf, atNode, t, found⟩
    have named : t ∈ namedTargets c.graph s (c.imports.mergedWith s.imports) (ownReferences c.references n) :=
      mem_namedTargets.mpr ⟨r, mem_ownReferences.mpr ⟨written, atNode⟩, isOf, found⟩
    have some : expandedBy c.graph s (c.imports.mergedWith s.imports) c.references n ≠ [] := fun none =>
      List.ne_nil_of_mem named (firstBy_eq_nil.mp none)
    have made := expansion_mem_nodeLinks_iff.mpr ⟨some, rfl, rfl, rfl⟩
    exact ⟨_, _, settles.mem_edges.mpr ⟨n, (mem_walk_iff built).mpr stored, made⟩⟩

/-- What a node expands, and whether its narration says so. -/
theorem Candidate.expansion_of_resolve {from' : NodeRef} {targets : List NodeRef} {origin : ExpansionOrigin}
    (member : .expansion from' targets origin ∈ m.graph.edges) :
    ∃ n, c.graph.node? n.path = some n ∧ from' = n.ref ∧ AreFirst targets ((namedTargets c.graph s
      (c.imports.mergedWith s.imports) (ownReferences c.references n)).map Node.ref) ∧
    (origin = .narrated ↔ ∃ steps, m.narrations.find? n.path = some steps ∧
      ∃ step ∈ steps, ∃ r ∈ step.conclusions, ∃ t ∈ targets, t.path = r.path) := by
  have settles := settlesTo built resolved
  obtain ⟨n, inside, member⟩ := settles.mem_edges.mp member
  obtain ⟨_, rfl, rfl, rfl⟩ := expansion_mem_nodeLinks_iff.mp member
  refine ⟨n, (mem_walk_iff built).mp inside, rfl, areFirst_map _, ?_⟩
  rw [originOf_eq_narrated_iff, settles.narrated n inside]
  cases resolvedNarration c.graph s (c.imports.mergedWith s.imports) n <;> simp

end

/-- Whatever a module names is accounted for when it resolves. -/
theorem ModuleSource.isComplete_of_resolve {s : ModuleSource} {c : Candidate} (built : s.build = .ok c)
    {surroundings : Surroundings} {m : ResolvedModule} (resolved : c.resolve surroundings = .ok m) :
    m.IsComplete c surroundings := by
  obtain ⟨source, wellFormed, build⟩ := s.build_eq_ok built
  have settles := Candidate.settlesTo build resolved
  have narrated : ∀ n written, c.graph.node? n.path = some n → n.narration = some written →
      m.narrations.find? n.path = some (written.map
        (resolvedStep c.graph surroundings (c.imports.mergedWith surroundings.imports) n)) := by
    intro n written stored narration
    rw [settles.narrated n ((Candidate.mem_walk_iff build).mpr stored), resolvedNarration, narration, Option.map_some]
  constructor
  case graph => rw [settles.graph]
  case narrated =>
    intro path
    constructor
    · rintro ⟨steps, found⟩
      obtain ⟨n, inside, rfl, written, narration, _⟩ := settles.exists_of_narrated found
      exact ⟨n, written, (Candidate.mem_walk_iff build).mp inside, narration⟩
    · rintro ⟨n, written, stored, narration⟩
      have own : n.path = path := (Candidate.isForest_of_build build).keyed path n stored
      subst own
      exact ⟨_, narrated n written stored narration⟩
  case steps =>
    intro n written stored narration
    refine ⟨_, narrated n written stored narration, ?_⟩
    rw [List.forall₂_map_right_iff]
    exact List.forall₂_same.mpr fun step _ => isStepOf_resolvedStep step
  case names =>
    intro n written stored narration step member text named
    exact Candidate.ghost_of_name build resolved wellFormed stored narration member named
  case inferences =>
    intro owner steps found step member
    obtain ⟨n, inside, rfl, written, narration, rfl⟩ := settles.exists_of_narrated found
    obtain ⟨step, inNarration, rfl⟩ := List.mem_map.mp member
    have stored := (Candidate.mem_walk_iff build).mp inside
    have exactly := Candidate.filter_isInferenceAt build resolved wellFormed stored narration inNarration
    refine ⟨?_, exactly⟩
    rw [show (resolvedStep c.graph surroundings (c.imports.mergedWith surroundings.imports) n step).index = step.index
      from rfl, exactly]
    exact nodup_inferencesOf (areFirst_map _).nodup (areFirst_map _).nodup
  case inferred => exact fun e => Candidate.exists_step_of_inference build resolved
  case clauses => exact fun r => Candidate.edge_of_reference build resolved wellFormed
  case expanded => exact fun n => Candidate.exists_expansion_iff build resolved
  case expansions => exact fun _ _ _ => Candidate.expansion_of_resolve build resolved

/-- A deduction that proves an assertion of another module in a step. -/
def steppingSource : ModuleSource := ⟨.single "m", .plain 1 0 0,
  "deduc P of X.T.C \x7b asrt E \x7b en = \"e\" \x7d narration = \"From E get X.T.C.\" \x7d"⟩

theorem ModuleSource.isComplete_of_resolve_steppingSource : ∃ library c m, steppingSource.build = .ok c ∧
    c.resolve { library := library } = .ok m ∧ m.graph.edges = [
      .inference ⟨(steppingSource.path.child "P").child "E", .plain 1 0 0⟩
        ⟨(pairSource.path.child "T").child "C", .plain 1 0 0⟩ (steppingSource.path.child "P") 1,
      .expansion ⟨steppingSource.path.child "P", .plain 1 0 0⟩
        [⟨(pairSource.path.child "T").child "C", .plain 1 0 0⟩] .narrated] ∧
    m.IsComplete c { library := library } := by
  have resolves : ((libraryOf [pairSource]).bind fun library => steppingSource.build.toOption.bind fun c =>
      (c.resolve { library := library }).toOption.map fun m => m.graph.edges) = some [
        .inference ⟨(steppingSource.path.child "P").child "E", .plain 1 0 0⟩
          ⟨(pairSource.path.child "T").child "C", .plain 1 0 0⟩ (steppingSource.path.child "P") 1,
        .expansion ⟨steppingSource.path.child "P", .plain 1 0 0⟩
          [⟨(pairSource.path.child "T").child "C", .plain 1 0 0⟩] .narrated] := by decide +kernel
  obtain ⟨library, _, resolves⟩ := Option.bind_eq_some_iff.mp resolves
  obtain ⟨c, built, resolves⟩ := Option.bind_eq_some_iff.mp resolves
  obtain ⟨m, resolves, edges⟩ := Option.map_eq_some_iff.mp resolves
  have built := Batch.toOption_eq_some_iff.mp built
  have resolved := Batch.toOption_eq_some_iff.mp resolves
  exact ⟨library, c, m, built, resolved, edges, isComplete_of_resolve built resolved⟩

/-- A deduction with a step from one assertion in two versions. -/
def twinSource : ModuleSource := ⟨.single "m", .plain 1 0 0,
  "deduc P \x7b asrt E \x7b en = \"e\" \x7d narration = \"From A.C and B.C get E.\" \x7d"⟩

def twinImports : ImportTable :=
  ImportTable.insert (.insert {} "A" ⟨pairSource.path.child "T", some (.plain 1 0 0)⟩)
    "B" ⟨pairSource.path.child "T", some (.plain 2 0 0)⟩

def twinLibrary : Option ModuleLibrary := libraryOf [pairSource, { pairSource with version := .plain 2 0 0 }]

/-- The assertion at a version. -/
def twinRef (version : Version) : NodeRef := ⟨(pairSource.path.child "T").child "C", version⟩

/-- Both names of the step lead to nodes, and the second node is left out, without a ghost edge. -/
theorem twinSource_omits : ∃ library c m n, library.IsCompiled ∧ twinSource.build = .ok c ∧
    c.resolve { library := library, imports := twinImports } = .ok m ∧
    c.graph.node? (twinSource.path.child "P") = some n ∧ ∃ written steps step r, n.narration = some written ∧
      m.narrations.find? (twinSource.path.child "P") = some steps ∧ step ∈ written ∧ r ∈ steps ∧
      r.index = step.index ∧ m.graph.edges = [] ∧
      (foundNodes c.graph { library := library, imports := twinImports } (c.imports.mergedWith twinImports) n
        step.antecedents).map Node.ref = [twinRef (.plain 1 0 0), twinRef (.plain 2 0 0)] ∧
      r.antecedents = [twinRef (.plain 1 0 0)] ∧
      r.antecedents ≠ firstOccurrences ((foundNodes c.graph { library := library, imports := twinImports }
        (c.imports.mergedWith twinImports) n step.antecedents).map Node.ref) := by
  have resolves : (do
      let library ← twinLibrary
      let c ← twinSource.build.toOption
      let m ← (c.resolve { library := library, imports := twinImports }).toOption
      let n ← c.graph.node? (twinSource.path.child "P")
      let step ← (n.narration.getD []).head?
      let r ← ((m.narrations.find? (twinSource.path.child "P")).getD []).head?
      return (r.index == step.index, m.graph.edges, (foundNodes c.graph
        { library := library, imports := twinImports } (c.imports.mergedWith twinImports) n step.antecedents).map
          Node.ref, r.antecedents)) =
      some (true, [], [twinRef (.plain 1 0 0), twinRef (.plain 2 0 0)], [twinRef (.plain 1 0 0)]) := by
    decide +kernel
  simp only [bind, Option.bind_eq_some_iff, pure, Option.some.injEq, Prod.mk.injEq, Batch.toOption_eq_some_iff]
    at resolves
  obtain ⟨library, collected, c, built, m, resolved, n, stored, step, first, r, first', index, edges, found, resolvedTo⟩ :=
    resolves
  obtain ⟨written, narration⟩ : ∃ written, n.narration = some written :=
    Option.ne_none_iff_exists'.mp fun none => by simp [none] at first
  obtain ⟨steps, narrated⟩ : ∃ steps, m.narrations.find? (twinSource.path.child "P") = some steps :=
    Option.ne_none_iff_exists'.mp fun none => by simp [none] at first'
  rw [narration] at first
  rw [narrated] at first'
  refine ⟨library, c, m, n, isCompiled_libraryOf collected, built, resolved, stored, written, steps, step, r, narration,
    narrated, List.mem_of_head? first, List.mem_of_head? first', beq_iff_eq.mp index, edges, found, resolvedTo, ?_⟩
  rw [found, resolvedTo]
  decide

end Deductions
