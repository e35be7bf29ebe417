import Deductions.Proofs.Graph.WellFormed

namespace Deductions

/-- The nodes that a step names. -/
def ResolvedStep.refs (step : ResolvedStep) : List NodeRef := step.antecedents ++ step.conclusions

namespace Resolution

/-- The inferences of a resolved step in the narration of `owner`. -/
def inferencesOf (graph : ModuleGraph) (owner : Path) (step : ResolvedStep) : List Edge :=
  (step.antecedents.filter fun r => graph.contains r.path).flatMap fun a =>
    step.conclusions.map fun c => .inference a c owner step.index

/-- What a narration makes of an expansion of the targets. -/
def originOf (steps : List ResolvedStep) (targets : List NodeRef) : ExpansionOrigin :=
  if steps.any fun step => step.conclusions.any fun c => targets.any fun t => t.path == c.path then .narrated
  else .declared

def inferencesIn (edges : List Edge) : List Edge := edges.filter fun e => e.kind = .inference

theorem inferencesIn_append (edges edges' : List Edge) :
    inferencesIn (edges ++ edges') = inferencesIn edges ++ inferencesIn edges' := List.filter_append ..

theorem mem_inferencesIn {edges : List Edge} {e : Edge} :
    e ∈ inferencesIn edges ↔ e ∈ edges ∧ e.kind = .inference := by
  rw [inferencesIn, List.mem_filter, decide_eq_true_eq]

theorem inferencesIn_eq_nil {edges : List Edge} (other : ∀ e ∈ edges, e.kind ≠ .inference) :
    inferencesIn edges = [] :=
  List.filter_eq_nil_iff.mpr fun e member isInference => other e member (of_decide_eq_true isInference)

/-- The path stands at the end of an edge or in a narration. -/
def Findings.Shows (f : Findings) (path : Path) : Prop :=
  (∃ e ∈ f.edges, e.isGhost = false ∧ path ∈ e.targets.map NodeRef.path) ∨
    ∃ owner steps, f.narrations.find? owner = some steps ∧ ∃ step ∈ steps, path ∈ step.refs.map NodeRef.path

/-- What is done apart from narrations: no inference is made and no narration is recorded. -/
structure Findings.Spares (f f' : Findings) : Prop where
  narrations : f'.narrations = f.narrations
  edges : f.edges ⊆ f'.edges
  external : SortedSet.toList f.external ⊆ SortedSet.toList f'.external
  inferences : inferencesIn f'.edges = inferencesIn f.edges

namespace Findings.Spares

variable {f f' f'' : Findings}

theorem of_eq (narrations : f'.narrations = f.narrations) (edges : f'.edges = f.edges)
    (external : SortedSet.toList f.external ⊆ SortedSet.toList f'.external) : f.Spares f' :=
  ⟨narrations, edges ▸ List.Subset.refl _, external, by rw [edges]⟩

theorem refl (f : Findings) : f.Spares f := of_eq rfl rfl (List.Subset.refl _)

theorem trans (first : f.Spares f') (second : f'.Spares f'') : f.Spares f'' :=
  ⟨second.narrations.trans first.narrations, List.Subset.trans first.edges second.edges,
    List.Subset.trans first.external second.external, second.inferences.trans first.inferences⟩

theorem addErrors (f : Findings) (errors : List ResolveError) : f.Spares (f.addErrors errors) :=
  of_eq rfl rfl (List.Subset.refl _)

theorem addEdges (f : Findings) {edges : List Edge} (other : ∀ e ∈ edges, e.kind ≠ .inference) :
    f.Spares (f.addEdges edges) := by
  refine ⟨rfl, List.subset_append_left _ _, List.Subset.refl _, ?_⟩
  rw [Findings.addEdges, inferencesIn_append, inferencesIn_eq_nil other, List.append_nil]

theorem note (f : Findings) (graph : ModuleGraph) (source : Node) (name : Path) (role : GhostRole)
    (result : Lookup) : f.Spares (f.note graph source name role result) := by
  cases result with
  | found node =>
    rw [Findings.note]
    split
    · exact refl f
    · exact of_eq rfl rfl fun r member => SortedSet.mem_toList_insert.mpr (.inr member)
  | ghost target =>
    rw [Findings.note]
    split
    · exact refl f
    · exact addEdges f (by simp [Edge.kind])
  | missing =>
    rw [Findings.note]
    split
    · exact refl f
    · exact addErrors f _

end Findings.Spares

variable {graph : ModuleGraph} {s : Surroundings} {imports : ImportTable} {references : List Reference}
  {f : Findings} {n : Node}

theorem spares_noteLookups (found : List (Path × Lookup)) : f.Spares (noteLookups graph n f found) := by
  induction found generalizing f with
  | nil => exact .refl f
  | cons l found ih => exact (Findings.Spares.note f graph n l.1 .narration l.2).trans ih

theorem inferences_eq {step : NarrationStep} {antecedents conclusions : List Node} :
    inferences graph n step antecedents conclusions = inferencesOf graph n.path
      ⟨step.index, step.connective, antecedents.map Node.ref, conclusions.map Node.ref⟩ := by
  rw [inferences, inferencesOf, List.filter_map, List.flatMap_map]
  simp only [List.map_map]
  rfl

theorem kind_of_mem_inferencesOf {owner : Path} {step : ResolvedStep} {e : Edge}
    (member : e ∈ inferencesOf graph owner step) : e.kind = .inference := by
  obtain ⟨a, _, member⟩ := List.mem_flatMap.mp member
  obtain ⟨c, _, rfl⟩ := List.mem_map.mp member
  rfl

theorem inferencesIn_inferencesOf (owner : Path) (step : ResolvedStep) :
    inferencesIn (inferencesOf graph owner step) = inferencesOf graph owner step :=
  List.filter_eq_self.mpr fun _ member => decide_eq_true (kind_of_mem_inferencesOf member)

theorem narrations_resolveStep {step : NarrationStep} :
    (resolveStep graph s imports n f step).2.narrations = f.narrations := (spares_noteLookups _).narrations

theorem edges_resolveStep {step : NarrationStep} : f.edges ⊆ (resolveStep graph s imports n f step).2.edges :=
  List.Subset.trans (spares_noteLookups _).edges (List.subset_append_left _ _)

theorem inferencesIn_resolveStep {step : NarrationStep} :
    inferencesIn (resolveStep graph s imports n f step).2.edges =
      inferencesIn f.edges ++ inferencesOf graph n.path (resolveStep graph s imports n f step).1 := by
  rw [← inferencesIn_inferencesOf n.path]
  rw [resolveStep]
  dsimp only
  rw [Findings.addEdges, inferencesIn_append, inferences_eq]
  exact congrArg (· ++ _) (spares_noteLookups _).inferences

/-- What is recorded for a name is what it leads to. -/
theorem mem_external_note {name : Path} {role : GhostRole} {result : Lookup} {r : NodeRef}
    (recorded : r ∈ SortedSet.toList (f.note graph n name role result).external) :
    r ∈ SortedSet.toList f.external ∨ ∃ t, result.node? = some t ∧ t.ref = r := by
  cases result with
  | found t =>
    rw [Findings.note] at recorded
    split at recorded
    · exact .inl recorded
    · rcases SortedSet.mem_toList_insert.mp recorded with rfl | old
      · exact .inr ⟨t, rfl, rfl⟩
      · exact .inl old
  | ghost target =>
    rw [Findings.note] at recorded
    split at recorded <;> exact .inl recorded
  | missing =>
    rw [Findings.note] at recorded
    split at recorded <;> exact .inl recorded

theorem mem_external_noteLookups {found : List (Path × Lookup)} {r : NodeRef}
    (recorded : r ∈ SortedSet.toList (noteLookups graph n f found).external) :
    r ∈ SortedSet.toList f.external ∨ ∃ t ∈ found.filterMap fun l => l.2.node?, t.ref = r := by
  induction found generalizing f with
  | nil => exact .inl recorded
  | cons l found ih =>
    rcases ih recorded with first | ⟨t, later, same⟩
    · refine (mem_external_note first).imp_right fun ⟨t, atL, same⟩ => ⟨t, ?_, same⟩
      exact List.mem_filterMap.mpr ⟨l, List.mem_cons_self, atL⟩
    · obtain ⟨l', inside, atL⟩ := List.mem_filterMap.mp later
      exact .inr ⟨t, List.mem_filterMap.mpr ⟨l', List.mem_cons_of_mem _ inside, atL⟩, same⟩

theorem knows_noteLookups {found : List (Path × Lookup)} {t : Node}
    (member : t ∈ found.filterMap fun l => l.2.node?) : (noteLookups graph n f found).Knows graph t := by
  induction found generalizing f with
  | nil => cases member
  | cons l found ih =>
    obtain ⟨l', inside, atL⟩ := List.mem_filterMap.mp member
    rcases List.mem_cons.mp inside with rfl | inside
    · exact (knows_note atL).mono (spares_noteLookups found).external
    · exact ih (List.mem_filterMap.mpr ⟨l', inside, atL⟩)

theorem external_resolveStep {step : NarrationStep} :
    (resolveStep graph s imports n f step).2.external = (noteLookups graph n f
      (lookups graph s imports n step.antecedents ++ lookups graph s imports n step.conclusions)).external := rfl

/-- The nodes that a resolved step names are those that its names lead to, one for each path. -/
theorem refs_resolveStep {step : NarrationStep} :
    (resolveStep graph s imports n f step).1.refs =
      (firstBy Node.path ((lookups graph s imports n step.antecedents).filterMap fun l => l.2.node?) ++
        firstBy Node.path ((lookups graph s imports n step.conclusions).filterMap fun l => l.2.node?)).map
          Node.ref := by
  rw [List.map_append]
  rfl

theorem known_resolveStep {step : NarrationStep} {r : NodeRef}
    (member : r ∈ (resolveStep graph s imports n f step).1.refs) : graph.contains r.path = true ∨
      r ∈ SortedSet.toList (resolveStep graph s imports n f step).2.external := by
  rw [refs_resolveStep] at member
  obtain ⟨t, inside, rfl⟩ := List.mem_map.mp member
  rw [external_resolveStep]
  refine knows_noteLookups ?_
  rw [List.filterMap_append]
  exact List.mem_append.mpr ((List.mem_append.mp inside).imp mem_of_mem_firstBy mem_of_mem_firstBy)

theorem shown_resolveStep {step : NarrationStep} {r : NodeRef}
    (recorded : r ∈ SortedSet.toList (resolveStep graph s imports n f step).2.external) :
    r ∈ SortedSet.toList f.external ∨
      r.path ∈ (resolveStep graph s imports n f step).1.refs.map NodeRef.path := by
  rw [external_resolveStep] at recorded
  refine (mem_external_noteLookups recorded).imp_right ?_
  rintro ⟨t, inside, rfl⟩
  have one : ∃ t' ∈ firstBy Node.path ((lookups graph s imports n step.antecedents).filterMap fun l => l.2.node?) ++
      firstBy Node.path ((lookups graph s imports n step.conclusions).filterMap fun l => l.2.node?),
      t'.path = t.path := by
    rw [List.filterMap_append] at inside
    rcases List.mem_append.mp inside with antecedent | conclusion
    · obtain ⟨t', first, same⟩ := exists_mem_firstBy Node.path antecedent
      exact ⟨t', List.mem_append_left _ first, same⟩
    · obtain ⟨t', first, same⟩ := exists_mem_firstBy Node.path conclusion
      exact ⟨t', List.mem_append_right _ first, same⟩
  obtain ⟨t', first, same⟩ := one
  rw [refs_resolveStep, List.map_map]
  exact List.mem_map.mpr ⟨t', first, same⟩

/-- What the narration of `owner`, resolved to the steps, adds. -/
structure Findings.Narrates (graph : ModuleGraph) (owner : Path) (steps : List ResolvedStep) (f f' : Findings) :
    Prop where
  narrations : f'.narrations = f.narrations
  edges : f.edges ⊆ f'.edges
  external : SortedSet.toList f.external ⊆ SortedSet.toList f'.external
  inferences : inferencesIn f'.edges = inferencesIn f.edges ++ steps.flatMap (inferencesOf graph owner)
  known : ∀ step ∈ steps, ∀ r ∈ step.refs, graph.contains r.path = true ∨ r ∈ SortedSet.toList f'.external
  shown : ∀ r ∈ SortedSet.toList f'.external,
    r ∈ SortedSet.toList f.external ∨ ∃ step ∈ steps, r.path ∈ step.refs.map NodeRef.path

theorem Findings.Narrates.nil (f : Findings) (owner : Path) : f.Narrates graph owner [] f where
  narrations := rfl
  edges := List.Subset.refl _
  external := List.Subset.refl _
  inferences := (List.append_nil _).symm
  known _ member := nomatch member
  shown _ := .inl

theorem narrates_resolveStep {step : NarrationStep} : f.Narrates graph n.path
    [(resolveStep graph s imports n f step).1] (resolveStep graph s imports n f step).2 where
  narrations := narrations_resolveStep
  edges := edges_resolveStep
  external := (spares_noteLookups _).external
  inferences := by
    rw [List.flatMap_singleton]
    exact inferencesIn_resolveStep
  known := by simpa using fun r => known_resolveStep
  shown r recorded := (shown_resolveStep recorded).imp_right fun inside => ⟨_, List.mem_singleton_self _, inside⟩

theorem Findings.Narrates.append {f' f'' : Findings} {owner : Path} {steps steps' : List ResolvedStep}
    (first : f.Narrates graph owner steps f') (second : f'.Narrates graph owner steps' f'') :
    f.Narrates graph owner (steps ++ steps') f'' where
  narrations := second.narrations.trans first.narrations
  edges := List.Subset.trans first.edges second.edges
  external := List.Subset.trans first.external second.external
  inferences := by rw [second.inferences, first.inferences, List.flatMap_append, List.append_assoc]
  known := by
    refine List.forall_mem_append.mpr ⟨fun step member r inside => ?_, second.known⟩
    exact (first.known step member r inside).imp_right fun recorded => second.external recorded
  shown := by
    intro r recorded
    rcases second.shown r recorded with before | ⟨step, member, inside⟩
    · refine (first.shown r before).imp_right fun ⟨step, member, inside⟩ => ?_
      exact ⟨step, List.mem_append_left _ member, inside⟩
    · exact .inr ⟨step, List.mem_append_right _ member, inside⟩

theorem narrates_resolveSteps {steps : List NarrationStep} : f.Narrates graph n.path
    (resolveSteps graph s imports n f steps).1 (resolveSteps graph s imports n f steps).2 := by
  induction steps generalizing f with
  | nil => exact .nil f n.path
  | cons step steps ih => exact narrates_resolveStep.append ih

theorem narrates_resolveNarration : f.Narrates graph n.path
    ((resolveNarration graph s imports f n).1.getD []) (resolveNarration graph s imports f n).2 := by
  rw [resolveNarration]
  cases n.narration with
  | none => exact .nil f n.path
  | some steps => exact narrates_resolveSteps

theorem spares_linkSupposition {target : Node} {clause : Clause} {edge : Edge} (other : edge.kind ≠ .inference) :
    f.Spares (linkSupposition graph n target clause edge f) := by
  have added : f.Spares (f.addEdges [edge]) := .addEdges f (by simpa using other)
  rw [linkSupposition]
  dsimp only
  split
  · split
    · exact added.trans (.of_eq rfl rfl (List.Subset.refl _))
    · exact added
  · exact .addErrors f _

theorem spares_linkReference {target : Node} (declared : Nat) (clause : Clause) :
    f.Spares (linkReference graph n declared clause target f) := by
  cases clause with
  | of => exact .addErrors f _
  | on => exact .addEdges f (by simp [Edge.kind])
  | versus => exact spares_linkSupposition (by simp [Edge.kind])
  | contra => exact spares_linkSupposition (by simp [Edge.kind])

theorem spares_resolveReferences {declared : Nat} {own : List Reference} :
    f.Spares (resolveReferences graph s imports n declared f own).2 := by
  induction own generalizing f with
  | nil => exact .refl f
  | cons r own ih =>
    have noted := Findings.Spares.note f graph n r.name r.clause.ghostRole (lookup graph s imports r.scope r.name)
    rw [resolveReferences]
    dsimp only
    split
    · exact noted.trans ih
    · exact (noted.trans (spares_linkReference declared r.clause)).trans ih

/-- Where nothing is wrong with it, the target of a clause is expanded or stands at the end of an edge. -/
theorem exists_edge_linkReference {target : Node} {declared : Nat} {clause : Clause} (other : clause ≠ .of)
    (noErrors : (linkReference graph n declared clause target f).errors = []) :
    ∃ e ∈ (linkReference graph n declared clause target f).edges, e.isGhost = false ∧ target.ref ∈ e.targets := by
  have supposed : ∀ {clause : Clause} {edge : Edge}, edge.isGhost = false → target.ref ∈ edge.targets →
      (linkSupposition graph n target clause edge f).errors = [] →
      ∃ e ∈ (linkSupposition graph n target clause edge f).edges, e.isGhost = false ∧ target.ref ∈ e.targets := by
    intro clause edge noGhost atEnd noErrors
    rw [linkSupposition] at noErrors ⊢
    dsimp only at noErrors ⊢
    split at noErrors
    next isSupposition =>
      rw [if_pos isSupposition]
      refine ⟨edge, ?_, noGhost, atEnd⟩
      split <;> exact List.mem_append_right _ (List.mem_singleton_self _)
    · simp [Findings.addErrors] at noErrors
  cases clause with
  | of => exact absurd rfl other
  | on => exact ⟨.annotates n.ref target.ref, List.mem_append_right _ (List.mem_singleton_self _), rfl,
      List.mem_singleton_self _⟩
  | versus => exact supposed rfl (List.mem_singleton_self _) noErrors
  | contra => exact supposed rfl (List.mem_singleton_self _) noErrors

theorem external_linkReference {target : Node} {declared : Nat} {clause : Clause} :
    (linkReference graph n declared clause target f).external = f.external := by
  have supposed : ∀ {clause : Clause} {edge : Edge},
      (linkSupposition graph n target clause edge f).external = f.external := by
    intro clause edge
    rw [linkSupposition]
    dsimp only
    repeat' split
    all_goals rfl
  cases clause with
  | of | on => rfl
  | versus | contra => exact supposed

/-- Where nothing is wrong with them, the targets of the clauses are expanded or stand at the end of
edges. -/
theorem shown_resolveReferences {declared : Nat} {own : List Reference}
    (noErrors : (resolveReferences graph s imports n declared f own).2.errors = []) {r : NodeRef}
    (recorded : r ∈ SortedSet.toList (resolveReferences graph s imports n declared f own).2.external) :
    r ∈ SortedSet.toList f.external ∨
      (∃ e ∈ (resolveReferences graph s imports n declared f own).2.edges, e.isGhost = false ∧ r ∈ e.targets) ∨
      ∃ t ∈ (resolveReferences graph s imports n declared f own).1, t.ref = r := by
  induction own generalizing f with
  | nil => exact .inl recorded
  | cons reference own ih =>
    rw [resolveReferences] at noErrors recorded ⊢
    cases found : (lookup graph s imports reference.scope reference.name).node? with
    | none =>
      simp only [found] at noErrors recorded ⊢
      refine (ih noErrors recorded).imp_left fun noted => ?_
      refine (mem_external_note noted).resolve_right ?_
      rintro ⟨t, leads, _⟩
      cases found.symm.trans leads
    | some target =>
      simp only [found] at noErrors recorded ⊢
      rcases ih noErrors recorded with linked | edge | ⟨t, later, same⟩
      · rw [external_linkReference] at linked
        refine (mem_external_note linked).imp_right ?_
        rintro ⟨t, leads, same⟩
        obtain rfl : target = t := Option.some.inj (found.symm.trans leads)
        subst same
        by_cases isOf : reference.clause = .of
        · exact .inr ⟨target, by rw [if_pos isOf]; exact List.mem_cons_self, rfl⟩
        · obtain ⟨e, member, noGhost, atEnd⟩ := exists_edge_linkReference isOf
            ((keeps_resolveReferences n declared _ own).errors noErrors)
          exact .inl ⟨e, spares_resolveReferences.edges member, noGhost, atEnd⟩
      · exact .inr (.inl edge)
      · refine .inr (.inr ⟨t, ?_, same⟩)
        split
        · exact List.mem_cons_of_mem _ later
        · exact later

theorem spares_claim {target : Node} : f.Spares (claim graph s n f target) := by
  rw [claim]
  split
  · exact .addErrors f _
  · exact .of_eq rfl rfl (List.Subset.refl _)

theorem spares_foldl_claim {targets : List Node} : f.Spares (targets.foldl (claim graph s n) f) := by
  induction targets generalizing f with
  | nil => exact .refl f
  | cons target targets ih => exact spares_claim.trans ih

theorem external_foldl_claim {targets : List Node} :
    (targets.foldl (claim graph s n) f).external = f.external := by
  induction targets generalizing f with
  | nil => rfl
  | cons target targets ih =>
    refine ih.trans ?_
    rw [claim]
    split <;> rfl

theorem isNarrated_eq (steps : List ResolvedStep) (targets : List Node) :
    (if isNarrated steps targets then .narrated else .declared) = originOf steps (targets.map Node.ref) := by
  rw [originOf]
  simp only [List.any_map]
  rfl

theorem expand_eq {targets : List Node} {steps : List ResolvedStep} (some : targets ≠ []) :
    expand graph s n targets steps f =
      (targets.foldl (claim graph s n) (f.addErrors (spanErrors graph s n targets))).addEdges
        [.expansion n.ref (targets.map Node.ref) (originOf steps (targets.map Node.ref))] := by
  rw [expand, if_neg (by simpa using some), isNarrated_eq]

theorem spares_expand {targets : List Node} {steps : List ResolvedStep} :
    f.Spares (expand graph s n targets steps f) := by
  by_cases some : targets = []
  · subst some
    exact .refl f
  · rw [expand_eq some]
    exact (Findings.Spares.trans (.addErrors f _) spares_foldl_claim).trans (.addEdges _ (by simp [Edge.kind]))

theorem external_expand {targets : List Node} {steps : List ResolvedStep} :
    (expand graph s n targets steps f).external = f.external := by
  by_cases some : targets = []
  · subst some
    rfl
  · rw [expand_eq some]
    exact external_foldl_claim

theorem mem_edges_expand {targets : List Node} {steps : List ResolvedStep} {e : Edge}
    (member : e ∈ (expand graph s n targets steps f).edges) :
    e ∈ f.edges ∨ e = .expansion n.ref (targets.map Node.ref) (originOf steps (targets.map Node.ref)) := by
  by_cases some : targets = []
  · subst some
    exact .inl member
  · rw [expand_eq some, Findings.addEdges, edges_foldl_claim] at member
    exact (List.mem_append.mp member).imp_right List.mem_singleton.mp

theorem errors_expand {targets : List Node} {steps : List ResolvedStep}
    (noErrors : (expand graph s n targets steps f).errors = []) : f.errors = [] := by
  by_cases some : targets = []
  · subst some
    exact noErrors
  · rw [expand_eq some] at noErrors
    exact (List.append_eq_nil_iff.mp (foldl_claim noErrors).1).1

/-- What the resolution of a node adds, whose narration is resolved to the steps, if it has one. -/
structure Findings.Gains (graph : ModuleGraph) (n : Node) (steps : Option (List ResolvedStep))
    (f f' : Findings) : Prop where
  narrated : f.narrations.find? n.path = none → f'.narrations.find? n.path = steps
  others : ∀ owner, owner ≠ n.path → f'.narrations.find? owner = f.narrations.find? owner
  edges : f.edges ⊆ f'.edges
  external : SortedSet.toList f.external ⊆ SortedSet.toList f'.external
  errors : f'.errors = [] → f.errors = []
  inferences : inferencesIn f'.edges =
    inferencesIn f.edges ++ (steps.getD []).flatMap (inferencesOf graph n.path)
  expansions : ∀ e ∈ f'.edges, e.isExpansion = true →
    e ∈ f.edges ∨ ∃ targets, e = .expansion n.ref targets (originOf (steps.getD []) targets)
  known : ∀ step ∈ steps.getD [], ∀ r ∈ step.refs,
    graph.contains r.path = true ∨ r ∈ SortedSet.toList f'.external
  shown : f'.errors = [] → ∀ r ∈ SortedSet.toList f'.external, r ∈ SortedSet.toList f.external ∨
    (∃ e ∈ f'.edges, e.isGhost = false ∧ r.path ∈ e.targets.map NodeRef.path) ∨
    ∃ step ∈ steps.getD [], r.path ∈ step.refs.map NodeRef.path

@[simp] theorem Findings.edges_keep (owner : Path) (steps : Option (List ResolvedStep)) :
    (f.keep owner steps).edges = f.edges := by cases steps <;> rfl

@[simp] theorem Findings.external_keep (owner : Path) (steps : Option (List ResolvedStep)) :
    (f.keep owner steps).external = f.external := by cases steps <;> rfl

theorem Findings.find?_narrations_keep {owner : Path} {steps : Option (List ResolvedStep)} :
    (f.narrations.find? owner = none → (f.keep owner steps).narrations.find? owner = steps) ∧
      ∀ other, other ≠ owner → (f.keep owner steps).narrations.find? other = f.narrations.find? other := by
  cases steps with
  | none => exact ⟨id, fun _ _ => rfl⟩
  | some steps =>
    exact ⟨fun _ => SortedMap.find?_insert_self .., fun other => SortedMap.find?_insert_of_ne _ _⟩

theorem shown_referred (noErrors : (referred graph s imports references f n).2.errors = []) {r : NodeRef}
    (recorded : r ∈ SortedSet.toList (referred graph s imports references f n).2.external) :
    r ∈ SortedSet.toList (resolveNarration graph s imports f n).2.external ∨
      (∃ e ∈ (referred graph s imports references f n).2.edges, e.isGhost = false ∧ r ∈ e.targets) ∨
      ∃ t ∈ (referred graph s imports references f n).1, t.ref = r :=
  shown_resolveReferences noErrors recorded

theorem gains_resolveNode : f.Gains graph n (resolveNarration graph s imports f n).1
    (resolveNode graph s imports references f n) := by
  have narrates : f.Narrates graph n.path ((resolveNarration graph s imports f n).1.getD [])
      (resolveNarration graph s imports f n).2 := narrates_resolveNarration
  have referred : (resolveNarration graph s imports f n).2.Spares (referred graph s imports references f n).2 :=
    spares_resolveReferences
  have expands : (Resolution.referred graph s imports references f n).2.Spares (expand graph s n
      (firstBy Node.path (Resolution.referred graph s imports references f n).1)
      ((resolveNarration graph s imports f n).1.getD [])
      (Resolution.referred graph s imports references f n).2) := spares_expand
  have after := referred.trans expands
  have noErrors : ∀ {steps : Option (List ResolvedStep)}, ((expand graph s n
      (firstBy Node.path (Resolution.referred graph s imports references f n).1)
      ((resolveNarration graph s imports f n).1.getD [])
      (Resolution.referred graph s imports references f n).2).keep n.path steps).errors = [] →
      (Resolution.referred graph s imports references f n).2.errors = [] := fun none =>
    errors_expand ((Findings.Keeps.keep _ _ _).errors none)
  rw [resolveNode_eq]
  constructor
  case narrated =>
    intro fresh
    refine Findings.find?_narrations_keep.1 ?_
    rw [after.narrations, narrates.narrations, fresh]
  case others =>
    intro owner other
    rw [Findings.find?_narrations_keep.2 owner other, after.narrations, narrates.narrations]
  case edges =>
    rw [Findings.edges_keep]
    exact List.Subset.trans narrates.edges after.edges
  case external =>
    rw [Findings.external_keep]
    exact List.Subset.trans narrates.external after.external
  case errors => exact fun none => (keeps_referred f n).errors (noErrors none)
  case inferences =>
    rw [Findings.edges_keep, after.inferences, narrates.inferences]
  case expansions =>
    intro e member isExpansion
    rw [Findings.edges_keep] at member
    refine (mem_edges_expand member).imp (fun old => ?_) fun new => ⟨_, new⟩
    have old : e ∈ (Resolution.referred graph s imports references f n).2.edges.filter Edge.isExpansion :=
      List.mem_filter.mpr ⟨old, isExpansion⟩
    rw [(keeps_referred f n).expansions] at old
    exact (List.mem_filter.mp old).1
  case known =>
    intro step member r inside
    rw [Findings.external_keep]
    exact (narrates.known step member r inside).imp_right fun recorded => after.external recorded
  case shown =>
    intro none r recorded
    rw [Findings.external_keep, external_expand] at recorded
    rw [Findings.edges_keep]
    rcases shown_referred (noErrors none) recorded with narrated | ⟨e, member, noGhost, atEnd⟩ | ⟨t, inside, rfl⟩
    · exact (narrates.shown r narrated).imp_right .inr
    · exact .inr (.inl ⟨e, expands.edges member, noGhost, List.mem_map_of_mem atEnd⟩)
    · obtain ⟨t', first, same⟩ := exists_mem_firstBy Node.path inside
      rw [expand_eq (List.ne_nil_of_mem first)]
      refine .inr (.inl ⟨_, List.mem_append_right _ (List.mem_singleton_self _), rfl, ?_⟩)
      rw [Edge.targets, List.map_map]
      exact List.mem_map.mpr ⟨t', first, same⟩

/-- Only nodes that are met get narrations. -/
theorem find?_narrations_foldl_of_notMem {nodes : List Node} {path : Path} (outside : path ∉ nodes.map Node.path) :
    (nodes.foldl (resolveNode graph s imports references) f).narrations.find? path = f.narrations.find? path := by
  induction nodes generalizing f with
  | nil => rfl
  | cons n nodes ih =>
    rw [List.map_cons, List.mem_cons, not_or] at outside
    rw [List.foldl_cons, ih outside.2, gains_resolveNode.others path outside.1]

/-- The findings tell the same in all places. `done` are the nodes that were resolved. -/
structure Findings.IsFaithful (graph : ModuleGraph) (done : List Path) (f : Findings) : Prop where
  owners : ∀ owner steps, f.narrations.find? owner = some steps → owner ∈ done
  sources : ∀ e ∈ f.edges, e.isExpansion = true → e.source.path ∈ done
  inferences : ∀ e, e ∈ inferencesIn f.edges ↔ ∃ owner steps, f.narrations.find? owner = some steps ∧
    ∃ step ∈ steps, e ∈ inferencesOf graph owner step
  origins : ∀ source targets origin, .expansion source targets origin ∈ f.edges →
    origin = originOf ((f.narrations.find? source.path).getD []) targets
  known : ∀ owner steps, f.narrations.find? owner = some steps → ∀ step ∈ steps, ∀ r ∈ step.refs,
    graph.contains r.path = true ∨ r ∈ SortedSet.toList f.external
  shown : f.errors = [] → ∀ r ∈ SortedSet.toList f.external, f.Shows r.path

theorem Findings.isFaithful_empty : ({} : Findings).IsFaithful graph [] where
  owners _ _ found := nomatch found
  sources _ member := nomatch member
  inferences _ := ⟨nofun, fun ⟨_, _, found, _⟩ => nomatch found⟩
  origins _ _ _ member := nomatch member
  known _ _ found := nomatch found
  shown _ _ recorded := nomatch recorded

/-- The resolution of one more node keeps the findings faithful. -/
theorem Findings.IsFaithful.next {done : List Path} (faithful : f.IsFaithful graph done)
    (fresh : n.path ∉ done) {steps : Option (List ResolvedStep)} {f' : Findings} (gains : f.Gains graph n steps f') :
    f'.IsFaithful graph (done ++ [n.path]) := by
  have unnarrated : f.narrations.find? n.path = none :=
    Option.eq_none_iff_forall_ne_some.mpr fun steps found => fresh (faithful.owners _ _ found)
  have atNode := gains.narrated unnarrated
  have before : ∀ {owner steps}, f.narrations.find? owner = some steps → f'.narrations.find? owner = some steps := by
    intro owner steps found
    rw [gains.others owner fun same => fresh (same ▸ faithful.owners _ _ found), found]
  -- a narration of the new findings is that of the node, or was there before
  have origin : ∀ {owner found}, f'.narrations.find? owner = some found →
      f.narrations.find? owner = some found ∨ owner = n.path ∧ steps = some found := by
    intro owner found atOwner
    by_cases same : owner = n.path
    · subst same
      exact .inr ⟨rfl, atNode.symm.trans atOwner⟩
    · exact .inl ((gains.others owner same).symm.trans atOwner)
  constructor
  case owners =>
    intro owner found atOwner
    rcases origin atOwner with old | ⟨rfl, _⟩
    · exact List.mem_append_left _ (faithful.owners owner found old)
    · exact List.mem_append_right _ (List.mem_singleton_self _)
  case sources =>
    intro e member isExpansion
    rcases gains.expansions e member isExpansion with old | ⟨targets, rfl⟩
    · exact List.mem_append_left _ (faithful.sources e old isExpansion)
    · exact List.mem_append_right _ (List.mem_singleton_self _)
  case inferences =>
    intro e
    rw [gains.inferences, List.mem_append, faithful.inferences, List.mem_flatMap]
    constructor
    · rintro (⟨owner, found, atOwner, made⟩ | ⟨step, member, made⟩)
      · exact ⟨owner, found, before atOwner, made⟩
      · cases steps with
        | none => cases member
        | some found => exact ⟨n.path, found, atNode, step, member, made⟩
    · rintro ⟨owner, found, atOwner, made⟩
      rcases origin atOwner with old | ⟨rfl, rfl⟩
      · exact .inl ⟨owner, found, old, made⟩
      · exact .inr made
  case origins =>
    intro source targets origin' member
    rcases gains.expansions _ member rfl with old | ⟨targets', same⟩
    · rw [gains.others source.path fun same => fresh (same ▸ faithful.sources _ old rfl)]
      exact faithful.origins source targets origin' old
    · cases same
      rw [show (n.ref).path = n.path from rfl, atNode]
  case known =>
    intro owner found atOwner step member r inside
    rcases origin atOwner with old | ⟨rfl, rfl⟩
    · exact (faithful.known owner found old step member r inside).imp_right fun recorded => gains.external recorded
    · exact gains.known step member r inside
  case shown =>
    intro none r recorded
    rcases gains.shown none r recorded with old | edge | ⟨step, member, inside⟩
    · rcases faithful.shown (gains.errors none) r old with ⟨e, member, atEnd⟩ | ⟨owner, found, atOwner, narrated⟩
      · exact .inl ⟨e, gains.edges member, atEnd⟩
      · exact .inr ⟨owner, found, before atOwner, narrated⟩
    · exact .inl edge
    · cases steps with
      | none => cases member
      | some found => exact .inr ⟨n.path, found, atNode, step, member, inside⟩

theorem isFaithful_foldl {done : List Path} {nodes : List Node} (faithful : f.IsFaithful graph done)
    (distinct : (done ++ nodes.map Node.path).Nodup) :
    (nodes.foldl (resolveNode graph s imports references) f).IsFaithful graph (done ++ nodes.map Node.path) := by
  induction nodes generalizing done f with
  | nil =>
    rw [List.map_nil, List.append_nil]
    exact faithful
  | cons n nodes ih =>
    have fresh : n.path ∉ done := fun member =>
      (List.nodup_append.mp distinct).2.2 _ member _ List.mem_cons_self rfl
    have split : done ++ (n :: nodes).map Node.path = done ++ [n.path] ++ nodes.map Node.path := by simp
    rw [split] at distinct ⊢
    exact ih (faithful.next fresh gains_resolveNode) distinct

end Resolution

open Resolution

/-- What is found of a built module is faithful. -/
theorem Candidate.isFaithful_findings {module : Path} {version : Version} {source : Source} {c : Candidate}
    (built : Candidate.build module version source = .ok c) (s : Surroundings) :
    (findings c s).IsFaithful c.graph ((c.graph.walk.getD []).map Node.path) :=
  isFaithful_foldl Findings.isFaithful_empty (nodup_walk built)

end Deductions
