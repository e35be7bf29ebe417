import Deductions.Proofs.Claims
import Deductions.Proofs.Unresolved

namespace Deductions

namespace Resolution

section

variable (graph : ModuleGraph) (s : Surroundings) (imports : ImportTable) (references : List Reference)

/-- A name of the node leads to the target. -/
def Reaches (n target : Node) : Prop :=
  ∃ scope name, Mentions references n scope name ∧ lookup graph s imports scope name = .found target

/-- A name of the node only leads to what the previous version has. -/
def Loses (n : Node) (target : NodeRef) : Prop :=
  ∃ scope name, Mentions references n scope name ∧ lookup graph s imports scope name = .ghost target

/-- The node is one of the module, or recorded as one of another. -/
def Findings.Knows (f : Findings) (t : Node) : Prop :=
  graph.contains t.path = true ∨ t.ref ∈ SortedSet.toList f.external

/-- The edge is made for a name of the node that is lost, or leads from the node, or from one of the
module that it names, to nodes that it names. -/
inductive IsLink (n : Node) (f : Findings) : Edge → Prop
  | ghost {target : NodeRef} {role : GhostRole} (loses : Loses graph s imports references n target) :
      IsLink n f (.ghost n.ref target role)
  | link {e : Edge} (noGhost : e.isGhost = false)
      (source : ∃ a, a.ref = e.source ∧
        (a = n ∨ Reaches graph s imports references n a ∧ graph.contains a.path = true))
      (targets : ∀ r ∈ e.targets, ∃ t, t.ref = r ∧ Reaches graph s imports references n t ∧ f.Knows graph t) :
      IsLink n f e

/-- What the resolution of a node adds: edges for its names, records of the nodes of other modules that it
names, and errors about it. -/
structure Findings.Extends (n : Node) (f f' : Findings) : Prop where
  retains : SortedSet.toList f.external ⊆ SortedSet.toList f'.external
  recorded : ∀ r ∈ SortedSet.toList f'.external, r ∈ SortedSet.toList f.external ∨
    ∃ t, t.ref = r ∧ Reaches graph s imports references n t ∧ graph.contains t.path = false
  edges : ∀ e ∈ f'.edges, e ∈ f.edges ∨ IsLink graph s imports references n f' e
  errors : ∀ e ∈ f'.errors, e ∈ f.errors ∨ e.node? = some n.path

end

variable {graph : ModuleGraph} {s : Surroundings} {imports : ImportTable} {references : List Reference}
  {f f' f'' : Findings} {n : Node}

theorem Findings.Knows.mono {t : Node} (knows : f.Knows graph t)
    (retains : SortedSet.toList f.external ⊆ SortedSet.toList f'.external) : f'.Knows graph t :=
  knows.imp_right fun recorded => retains recorded

theorem IsLink.mono {e : Edge} (isLink : IsLink graph s imports references n f e)
    (retains : SortedSet.toList f.external ⊆ SortedSet.toList f'.external) :
    IsLink graph s imports references n f' e := by
  cases isLink with
  | ghost loses => exact .ghost loses
  | link noGhost source targets =>
    refine .link noGhost source fun r atEnd => ?_
    obtain ⟨t, same, reaches, knows⟩ := targets r atEnd
    exact ⟨t, same, reaches, knows.mono retains⟩

namespace Findings.Extends

theorem of_eq (edges : f'.edges = f.edges) (external : f'.external = f.external) (errors : f'.errors = f.errors) :
    Extends graph s imports references n f f' where
  retains := external ▸ List.Subset.refl _
  recorded _ member := .inl (external ▸ member)
  edges _ member := .inl (edges ▸ member)
  errors _ member := .inl (errors ▸ member)

theorem refl (f : Findings) : Extends graph s imports references n f f := of_eq rfl rfl rfl

theorem trans (first : Extends graph s imports references n f f')
    (second : Extends graph s imports references n f' f'') : Extends graph s imports references n f f'' where
  retains := List.Subset.trans first.retains second.retains
  recorded r member := (second.recorded r member).elim (first.recorded r) .inr
  edges e member := by
    rcases second.edges e member with before | isLink
    · exact (first.edges e before).imp_right fun isLink => isLink.mono second.retains
    · exact .inr isLink
  errors e member := (second.errors e member).elim (first.errors e) .inr

theorem addErrors (f : Findings) {errors : List ResolveError} (own : ∀ e ∈ errors, e.node? = some n.path) :
    Extends graph s imports references n f (f.addErrors errors) where
  retains := List.Subset.refl _
  recorded _ := .inl
  edges _ := .inl
  errors e member := (List.mem_append.mp member).imp_right (own e)

theorem addEdges (f : Findings) {edges : List Edge}
    (areLinks : ∀ e ∈ edges, IsLink graph s imports references n f e) :
    Extends graph s imports references n f (f.addEdges edges) where
  retains := List.Subset.refl _
  recorded _ := .inl
  edges e member := (List.mem_append.mp member).imp_right fun new => (areLinks e new).mono (List.Subset.refl _)
  errors _ := .inl

theorem keep (f : Findings) (owner : Path) (steps : Option (List ResolvedStep)) :
    Extends graph s imports references n f (f.keep owner steps) := by
  cases steps <;> exact of_eq rfl rfl rfl

theorem note (f : Findings) {scope name : Path} (mentions : Mentions references n scope name) (role : GhostRole) :
    Extends graph s imports references n f (f.note graph n name role (lookup graph s imports scope name)) := by
  cases result : lookup graph s imports scope name with
  | found node =>
    rw [Findings.note]
    by_cases own : graph.contains node.path = true
    · rw [if_pos own]
      exact refl f
    · rw [if_neg own]
      refine ⟨fun r member => SortedSet.mem_toList_insert.mpr (.inr member), fun r member => ?_,
        fun e member => .inl member, fun e member => .inl member⟩
      rcases SortedSet.mem_toList_insert.mp member with rfl | before
      · exact .inr ⟨node, rfl, ⟨scope, name, mentions, result⟩, Bool.eq_false_iff.mpr own⟩
      · exact .inl before
  | ghost target =>
    rw [Findings.note]
    split
    · exact refl f
    · refine addEdges f fun e member => ?_
      rw [List.mem_singleton.mp member]
      exact .ghost ⟨scope, name, mentions, result⟩
  | missing =>
    rw [Findings.note]
    split
    · exact refl f
    · exact addErrors f fun e member => by rw [List.mem_singleton.mp member]; rfl

end Findings.Extends

theorem Lookup.eq_found_of_node? {result : Lookup} {t : Node} (found : result.node? = some t) :
    result = .found t := by
  cases result <;> cases found
  rfl

/-- After a name is noted, the node that it leads to is known. -/
theorem knows_note {name : Path} {role : GhostRole} {result : Lookup} {t : Node}
    (found : result.node? = some t) : (f.note graph n name role result).Knows graph t := by
  rw [Lookup.eq_found_of_node? found, Findings.note]
  by_cases own : graph.contains t.path = true
  · exact .inl own
  · rw [if_neg own]
    exact .inr (SortedSet.mem_toList_insert.mpr (.inl rfl))

/-- The names are ones that the narration of the node has, with what became of them. -/
def AreLookups (graph : ModuleGraph) (s : Surroundings) (imports : ImportTable) (n : Node)
    (found : List (Path × Lookup)) : Prop :=
  ∀ l ∈ found, l.1 ∈ Candidate.narrationNames n ∧ l.2 = lookup graph s imports n.path l.1

theorem AreLookups.reaches {found : List (Path × Lookup)} (areLookups : AreLookups graph s imports n found)
    {t : Node} (member : t ∈ found.filterMap fun l => l.2.node?) :
    Reaches graph s imports references n t := by
  obtain ⟨l, inside, found⟩ := List.mem_filterMap.mp member
  obtain ⟨narrated, same⟩ := areLookups l inside
  exact ⟨n.path, l.1, .inl ⟨rfl, narrated⟩, same ▸ Lookup.eq_found_of_node? found⟩

theorem extends_noteLookups {found : List (Path × Lookup)} (areLookups : AreLookups graph s imports n found) :
    Findings.Extends graph s imports references n f (noteLookups graph n f found) ∧
      ∀ t ∈ found.filterMap fun l => l.2.node?, (noteLookups graph n f found).Knows graph t := by
  induction found generalizing f with
  | nil => exact ⟨.refl f, fun l member => nomatch member⟩
  | cons l found ih =>
    obtain ⟨⟨narrated, same⟩, later⟩ := List.forall_mem_cons.mp areLookups
    obtain ⟨name, result⟩ := l
    have same : result = lookup graph s imports n.path name := same
    have first : Findings.Extends graph s imports references n f (f.note graph n name .narration result) := by
      rw [same]
      exact .note f (.inl ⟨rfl, narrated⟩) .narration
    obtain ⟨rest, knows⟩ : Findings.Extends graph s imports references n (f.note graph n name .narration result)
        (noteLookups graph n f ((name, result) :: found)) ∧ _ := ih later
    refine ⟨first.trans rest, fun t member => ?_⟩
    obtain ⟨l, inside, atL⟩ := List.mem_filterMap.mp member
    rcases List.mem_cons.mp inside with rfl | inside
    · exact (knows_note atL).mono rest.retains
    · exact knows t (List.mem_filterMap.mpr ⟨l, inside, atL⟩)

theorem areLookups_lookups {names : List String} (narrated : ∀ text ∈ names, ∀ name,
      (Path.parse text).toOption = some name → name ∈ Candidate.narrationNames n) :
    AreLookups graph s imports n (lookups graph s imports n names) := by
  intro l member
  obtain ⟨text, inside, parsed, same⟩ := mem_lookups.mp member
  exact ⟨narrated text inside l.1 parsed, same⟩

theorem node?_conclusionErrors {step : NarrationStep} {target : Node} :
    ∀ e ∈ conclusionErrors n step target, e.node? = some n.path := by
  intro e member
  unfold conclusionErrors at member
  repeat' split at member
  all_goals simp only [List.mem_singleton, List.not_mem_nil] at member
  all_goals rw [member, ResolveError.node?]

theorem extends_resolveStep {step : NarrationStep} (narrated : ∀ text ∈ step.names, ∀ name,
      (Path.parse text).toOption = some name → name ∈ Candidate.narrationNames n) :
    Findings.Extends graph s imports references n f (resolveStep graph s imports n f step).2 := by
  have antecedents : AreLookups graph s imports n (lookups graph s imports n step.antecedents) :=
    areLookups_lookups fun text member =>
      narrated text (mem_firstOccurrences.mpr (List.mem_append_left _ member))
  have conclusions : AreLookups graph s imports n (lookups graph s imports n step.conclusions) :=
    areLookups_lookups fun text member =>
      narrated text (mem_firstOccurrences.mpr (List.mem_append_right _ member))
  obtain ⟨noted, knows⟩ : Findings.Extends graph s imports references n f (noteLookups graph n f
      (lookups graph s imports n step.antecedents ++ lookups graph s imports n step.conclusions)) ∧ _ :=
    extends_noteLookups (List.forall_mem_append.mpr ⟨antecedents, conclusions⟩)
  refine (noted.trans (.addErrors _ fun e member => ?_)).trans (.addEdges _ fun e member => ?_)
  · obtain ⟨target, _, member⟩ := List.mem_flatMap.mp member
    exact node?_conclusionErrors e member
  obtain ⟨a, inA, member⟩ := List.mem_flatMap.mp member
  obtain ⟨c, inC, rfl⟩ := List.mem_map.mp member
  obtain ⟨inA, own⟩ := List.mem_filter.mp inA
  have reachesA : Reaches graph s imports references n a := antecedents.reaches (mem_of_mem_firstBy inA)
  have inC := mem_of_mem_firstBy inC
  refine .link rfl ⟨a, rfl, .inr ⟨reachesA, own⟩⟩ fun r atEnd => ?_
  rw [List.mem_singleton.mp atEnd]
  refine ⟨c, rfl, conclusions.reaches inC, knows c ?_⟩
  rw [List.filterMap_append]
  exact List.mem_append_right _ inC

theorem extends_resolveSteps {steps : List NarrationStep} (narrated : ∀ step ∈ steps, ∀ text ∈ step.names,
      ∀ name, (Path.parse text).toOption = some name → name ∈ Candidate.narrationNames n) :
    Findings.Extends graph s imports references n f (resolveSteps graph s imports n f steps).2 := by
  induction steps generalizing f with
  | nil => exact .refl f
  | cons step steps ih =>
    obtain ⟨first, later⟩ := List.forall_mem_cons.mp narrated
    exact (extends_resolveStep first).trans (ih later)

theorem extends_resolveNarration :
    Findings.Extends graph s imports references n f (resolveNarration graph s imports f n).2 := by
  rw [resolveNarration]
  cases narration : n.narration with
  | none => exact .refl f
  | some steps =>
    refine extends_resolveSteps fun step member text inside name parsed => ?_
    rw [Candidate.narrationNames, narration, Option.getD_some]
    exact List.mem_flatMap.mpr ⟨step, member, List.mem_filterMap.mpr ⟨text, inside, parsed⟩⟩

theorem extends_linkSupposition {target : Node} {clause : Clause} {edge : Edge}
    (isLink : IsLink graph s imports references n f edge) :
    Findings.Extends graph s imports references n f (linkSupposition graph n target clause edge f) := by
  have added : Findings.Extends graph s imports references n f (f.addEdges [edge]) :=
    .addEdges f (by simpa using isLink)
  rw [linkSupposition]
  split
  · dsimp only
    split
    · exact added.trans (.of_eq rfl rfl rfl)
    · exact added
  · exact .addErrors f fun e member => by rw [List.mem_singleton.mp member]; rfl

theorem node?_targetErrors {target : Node} {declared : Nat} :
    ∀ e ∈ targetErrors n target declared, e.node? = some n.path := by
  intro e member
  unfold targetErrors at member
  repeat' split at member
  all_goals simp only [List.mem_singleton, List.not_mem_nil] at member
  all_goals rw [member, ResolveError.node?]

theorem extends_linkReference {target : Node} (declared : Nat) (clause : Clause)
    (reaches : Reaches graph s imports references n target) (knows : f.Knows graph target) :
    Findings.Extends graph s imports references n f (linkReference graph n declared clause target f) := by
  have isLink : ∀ e : Edge, e.isGhost = false → e.source = n.ref → e.targets = [target.ref] →
      IsLink graph s imports references n f e := by
    intro e noGhost source targets
    refine .link noGhost ⟨n, source.symm, .inl rfl⟩ fun r atEnd => ?_
    rw [targets, List.mem_singleton] at atEnd
    exact ⟨target, atEnd.symm, reaches, knows⟩
  cases clause with
  | of => exact .addErrors f node?_targetErrors
  | on => exact .addEdges f (by simpa using isLink (.annotates n.ref target.ref) rfl rfl rfl)
  | versus => exact extends_linkSupposition (isLink _ rfl rfl rfl)
  | contra => exact extends_linkSupposition (isLink _ rfl rfl rfl)

theorem extends_resolveReferences {declared : Nat} {own : List Reference}
    (written : ∀ r ∈ own, r ∈ references ∧ r.source = n.path) :
    Findings.Extends graph s imports references n f (resolveReferences graph s imports n declared f own).2 ∧
      ∀ t ∈ (resolveReferences graph s imports n declared f own).1,
        (resolveReferences graph s imports n declared f own).2.Knows graph t := by
  induction own generalizing f with
  | nil => exact ⟨.refl f, fun t member => nomatch member⟩
  | cons r own ih =>
    obtain ⟨⟨member, atNode⟩, later⟩ := List.forall_mem_cons.mp written
    have mentions : Mentions references n r.scope r.name := .inr ⟨r, member, atNode, rfl, rfl⟩
    have noted : Findings.Extends graph s imports references n f (f.note graph n r.name r.clause.ghostRole
        (lookup graph s imports r.scope r.name)) := .note f mentions r.clause.ghostRole
    rw [resolveReferences]
    dsimp only
    split
    · obtain ⟨rest, knows⟩ := ih (f := f.note graph n r.name r.clause.ghostRole
        (lookup graph s imports r.scope r.name)) later
      exact ⟨noted.trans rest, knows⟩
    next target found =>
      have known : (f.note graph n r.name r.clause.ghostRole (lookup graph s imports r.scope r.name)).Knows
          graph target := knows_note found
      have linked := extends_linkReference declared r.clause
        ⟨r.scope, r.name, mentions, Lookup.eq_found_of_node? found⟩ known
      obtain ⟨rest, knows⟩ := ih (f := linkReference graph n declared r.clause target _) later
      refine ⟨(noted.trans linked).trans rest, fun t inside => ?_⟩
      split at inside
      · rcases List.mem_cons.mp inside with rfl | inside
        · exact known.mono (linked.trans rest).retains
        · exact knows t inside
      · exact knows t inside

theorem extends_referred : Findings.Extends graph s imports references n f (referred graph s imports references f n).2 ∧
    ∀ t ∈ (referred graph s imports references f n).1,
      Reaches graph s imports references n t ∧ (referred graph s imports references f n).2.Knows graph t := by
  have written : ∀ r ∈ references.filter (fun r => r.source == n.path), r ∈ references ∧ r.source = n.path := by
    intro r member
    obtain ⟨member, own⟩ := List.mem_filter.mp member
    exact ⟨member, beq_iff_eq.mp own⟩
  obtain ⟨rest, knows⟩ : Findings.Extends graph s imports references n (resolveNarration graph s imports f n).2
      (referred graph s imports references f n).2 ∧ _ := extends_resolveReferences written
  refine ⟨extends_resolveNarration.trans rest, fun t member => ⟨?_, knows t member⟩⟩
  obtain ⟨r, inside, _, own, leads⟩ := mem_referred member
  exact ⟨r.scope, r.name, .inr ⟨r, inside, own, rfl, rfl⟩, leads⟩

theorem extends_claim {target : Node} :
    Findings.Extends graph s imports references n f (claim graph s n f target) := by
  rw [claim]
  split
  · exact .addErrors f fun e member => by rw [List.mem_singleton.mp member]; rfl
  · exact .of_eq rfl rfl rfl

theorem extends_foldl_claim {targets : List Node} :
    Findings.Extends graph s imports references n f (targets.foldl (claim graph s n) f) := by
  induction targets generalizing f with
  | nil => exact .refl f
  | cons target targets ih => exact extends_claim.trans ih

theorem node?_spanErrors {targets : List Node} : ∀ e ∈ spanErrors graph s n targets, e.node? = some n.path := by
  intro e member
  unfold spanErrors at member
  split at member
  · cases member
  · cases member
  · rw [List.mem_singleton.mp member, ResolveError.node?]

theorem extends_expand {targets : List Node} {steps : List ResolvedStep}
    (known : ∀ t ∈ targets, Reaches graph s imports references n t ∧ f.Knows graph t) :
    Findings.Extends graph s imports references n f (expand graph s n targets steps f) := by
  rw [expand]
  split
  · exact .refl f
  · have claimed : Findings.Extends graph s imports references n f
        (targets.foldl (claim graph s n) (f.addErrors (spanErrors graph s n targets))) :=
      .trans (.addErrors f node?_spanErrors) extends_foldl_claim
    refine claimed.trans (.addEdges _ fun e member => ?_)
    rw [List.mem_singleton.mp member]
    refine .link rfl ⟨n, rfl, .inl rfl⟩ fun r atEnd => ?_
    obtain ⟨t, inside, rfl⟩ := List.mem_map.mp atEnd
    obtain ⟨reaches, knows⟩ := known t inside
    exact ⟨t, rfl, reaches, knows.mono claimed.retains⟩

theorem extends_resolveNode : Findings.Extends graph s imports references n f
    (resolveNode graph s imports references f n) := by
  obtain ⟨first, knows⟩ : Findings.Extends graph s imports references n f
      (referred graph s imports references f n).2 ∧ _ := extends_referred
  rw [resolveNode_eq]
  refine (first.trans (extends_expand fun t member => ?_)).trans (.keep _ _ _)
  exact knows t (mem_of_mem_firstBy member)

/-- What a run over the nodes adds is what the resolution of each adds. -/
structure Findings.ExtendsOver (graph : ModuleGraph) (s : Surroundings) (imports : ImportTable)
    (references : List Reference) (nodes : List Node) (f f' : Findings) : Prop where
  retains : SortedSet.toList f.external ⊆ SortedSet.toList f'.external
  recorded : ∀ r ∈ SortedSet.toList f'.external, r ∈ SortedSet.toList f.external ∨ ∃ n ∈ nodes,
    ∃ t, t.ref = r ∧ Reaches graph s imports references n t ∧ graph.contains t.path = false
  edges : ∀ e ∈ f'.edges, e ∈ f.edges ∨ ∃ n ∈ nodes, IsLink graph s imports references n f' e
  errors : ∀ e ∈ f'.errors, e ∈ f.errors ∨ ∃ n ∈ nodes, e.node? = some n.path

theorem extendsOver_foldl {nodes : List Node} : Findings.ExtendsOver graph s imports references nodes f
    (nodes.foldl (resolveNode graph s imports references) f) := by
  induction nodes generalizing f with
  | nil => exact ⟨List.Subset.refl _, fun _ => .inl, fun _ => .inl, fun _ => .inl⟩
  | cons n nodes ih =>
    have first : Findings.Extends graph s imports references n f (resolveNode graph s imports references f n) :=
      extends_resolveNode
    have later := ih (f := resolveNode graph s imports references f n)
    have here : n ∈ n :: nodes := List.mem_cons_self
    refine ⟨List.Subset.trans first.retains later.retains, fun r member => ?_, fun e member => ?_,
      fun e member => ?_⟩
    · rcases later.recorded r member with before | ⟨n', inside, reaches⟩
      · exact (first.recorded r before).imp_right fun reaches => ⟨n, here, reaches⟩
      · exact .inr ⟨n', List.mem_cons_of_mem _ inside, reaches⟩
    · rcases later.edges e member with before | ⟨n', inside, isLink⟩
      · exact (first.edges e before).imp_right fun isLink => ⟨n, here, isLink.mono later.retains⟩
      · exact .inr ⟨n', List.mem_cons_of_mem _ inside, isLink⟩
    · rcases later.errors e member with before | ⟨n', inside, own⟩
      · exact (first.errors e before).imp_right fun own => ⟨n, here, own⟩
      · exact .inr ⟨n', List.mem_cons_of_mem _ inside, own⟩

end Resolution

open Resolution

variable {c : Candidate} {s : Surroundings}

/-- Every edge of a resolution is made for the names of a node. -/
theorem Candidate.isLink_of_mem_findings {e : Edge} (member : e ∈ (findings c s).edges) :
    ∃ n ∈ c.graph.walk.getD [],
      IsLink c.graph s (c.imports.mergedWith s.imports) c.references n (findings c s) e :=
  (extendsOver_foldl.edges e member).resolve_left List.not_mem_nil

/-- What a resolution records is what its names lead to outside the module. -/
theorem Candidate.reaches_of_mem_external {r : NodeRef}
    (member : r ∈ SortedSet.toList (findings c s).external) : ∃ n ∈ c.graph.walk.getD [], ∃ t, t.ref = r ∧
      Reaches c.graph s (c.imports.mergedWith s.imports) c.references n t ∧ c.graph.contains t.path = false :=
  (extendsOver_foldl.recorded r member).resolve_left List.not_mem_nil

/-- Every error that the resolution of the nodes finds names one of them. -/
theorem Candidate.node?_of_mem_findings {e : ResolveError} (member : e ∈ (findings c s).errors) :
    ∃ n ∈ c.graph.walk.getD [], e.node? = some n.path :=
  (extendsOver_foldl.errors e member).resolve_left List.not_mem_nil

end Deductions
