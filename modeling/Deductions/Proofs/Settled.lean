import Deductions.Proofs.Faithful

namespace Deductions

namespace Resolution

/-- Adds an edge; a ghost edge that is there already is not added again. -/
def addLink (edges : List Edge) (e : Edge) : List Edge :=
  if e.isGhost && edges.contains e then edges else edges ++ [e]

def addLinks (edges links : List Edge) : List Edge := links.foldl addLink edges

theorem addLinks_append (edges links links' : List Edge) :
    addLinks edges (links ++ links') = addLinks (addLinks edges links) links' := List.foldl_append

theorem addLink_of_noGhost (edges : List Edge) {e : Edge} (noGhost : e.isGhost = false) :
    addLink edges e = edges ++ [e] := by
  rw [addLink, noGhost]
  rfl

theorem mem_addLink {edges : List Edge} {e e' : Edge} : e ∈ addLink edges e' ↔ e ∈ edges ∨ e = e' := by
  rw [addLink]
  split
  next already =>
    rw [Bool.and_eq_true, List.contains_iff_mem] at already
    refine ⟨.inl, ?_⟩
    rintro (old | rfl)
    · exact old
    · exact already.2
  · rw [List.mem_append, List.mem_singleton]

theorem mem_addLinks {edges links : List Edge} {e : Edge} : e ∈ addLinks edges links ↔ e ∈ edges ∨ e ∈ links := by
  induction links generalizing edges with
  | nil => exact (or_iff_left List.not_mem_nil).symm
  | cons e' links ih => exact ih.trans (by rw [mem_addLink, List.mem_cons, or_assoc])

/-- Of the edges that are no ghosts all are added. -/
theorem filter_addLinks {p : Edge → Bool} (noGhost : ∀ e, p e = true → e.isGhost = false)
    (edges links : List Edge) : (addLinks edges links).filter p = edges.filter p ++ links.filter p := by
  induction links generalizing edges with
  | nil => exact (List.append_nil _).symm
  | cons e links ih =>
    have first : (addLink edges e).filter p = edges.filter p ++ [e].filter p := by
      cases holds : p e with
      | true => rw [addLink_of_noGhost edges (noGhost e holds), List.filter_append]
      | false =>
        rw [addLink]
        split <;> simp [holds]
    refine (ih (addLink edges e)).trans ?_
    rw [first, List.append_assoc, ← List.filter_append]
    rfl

theorem addLinks_of_noGhost (edges : List Edge) {links : List Edge} (noGhost : ∀ e ∈ links, e.isGhost = false) :
    addLinks edges links = edges ++ links := by
  induction links generalizing edges with
  | nil => exact (List.append_nil _).symm
  | cons e links ih =>
    obtain ⟨first, later⟩ := List.forall_mem_cons.mp noGhost
    refine (ih (addLink edges e) later).trans ?_
    rw [addLink_of_noGhost edges first, List.append_assoc, List.singleton_append]

/-- The ghost edge of a name of `n` that is lost. -/
def ghostOf (n : Node) (role : GhostRole) : Lookup → List Edge
  | .ghost target => [.ghost n.ref target role]
  | _ => []

/-- The edge that a clause makes. Expansions are not made name by name. -/
def clauseEdge? (source target : NodeRef) : Clause → Option Edge
  | .of => none
  | .on => some (.annotates source target)
  | .versus => some (.alternativeCase source target)
  | .contra => some (.contradiction source target)

/-- The edges of a name in a clause of `n`. -/
def clauseLinks (n : Node) (clause : Clause) : Lookup → List Edge
  | .found t => (clauseEdge? n.ref t.ref clause).toList
  | lost => ghostOf n clause.ghostRole lost

/-- Whether `t` may be named in a clause of `n`, whose `of` clause has `declared` names. -/
def IsFit (n : Node) (declared : Nat) (t : Node) : Clause → Prop
  | .of => targetErrors n t declared = []
  | .on => True
  | .versus | .contra => t.kind = .supposition

section

variable (graph : ModuleGraph) (s : Surroundings) (imports : ImportTable) (references : List Reference)

/-- The nodes that names in the narration of `n` lead to, one for each path. -/
def namedNodes (n : Node) (names : List String) : List Node :=
  firstBy Node.path ((lookups graph s imports n names).filterMap fun l => l.2.node?)

def resolvedStep (n : Node) (step : NarrationStep) : ResolvedStep where
  index := step.index
  connective := step.connective
  antecedents := (namedNodes graph s imports n step.antecedents).map Node.ref
  conclusions := (namedNodes graph s imports n step.conclusions).map Node.ref

def resolvedNarration (n : Node) : Option (List ResolvedStep) :=
  n.narration.map (List.map (resolvedStep graph s imports n))

def stepLinks (n : Node) (step : NarrationStep) : List Edge :=
  ((lookups graph s imports n step.antecedents ++ lookups graph s imports n step.conclusions).flatMap fun l =>
      ghostOf n .narration l.2) ++
    inferencesOf graph n.path (resolvedStep graph s imports n step)

def ownReferences (n : Node) : List Reference := references.filter fun r => r.source == n.path

/-- How many names the `of` clause of the node has. -/
def declaredBy (n : Node) : Nat := ((ownReferences references n).filter fun r => r.clause == .of).length

def referenceLinks (n : Node) (r : Reference) : List Edge :=
  clauseLinks n r.clause (lookup graph s imports r.scope r.name)

/-- The node that a name of an `of` clause leads to. -/
def targetOf (r : Reference) : Option Node :=
  if r.clause = .of then (lookup graph s imports r.scope r.name).node? else none

def namedTargets (own : List Reference) : List Node := own.filterMap (targetOf graph s imports)

/-- The nodes that the node expands, one for each path. -/
def expandedBy (n : Node) : List Node := firstBy Node.path (namedTargets graph s imports (ownReferences references n))

/-- The expansion of `targets`, if there are any. -/
def expansionOfAll (n : Node) (steps : List ResolvedStep) (targets : List NodeRef) : List Edge :=
  if targets = [] then [] else [.expansion n.ref targets (originOf steps targets)]

def nodeLinks (n : Node) : List Edge :=
  (n.narration.getD []).flatMap (stepLinks graph s imports n) ++
    (ownReferences references n).flatMap (referenceLinks graph s imports n) ++
    expansionOfAll n ((resolvedNarration graph s imports n).getD [])
      ((expandedBy graph s imports references n).map Node.ref)

/-- The names of the node lead to nodes that it may name. -/
structure IsSettled (n : Node) : Prop where
  conclusions : ∀ step ∈ n.narration.getD [], ∀ t ∈ namedNodes graph s imports n step.conclusions,
    conclusionErrors n step t = []
  clauses : ∀ r ∈ ownReferences references n, ∀ t, lookup graph s imports r.scope r.name = .found t →
    IsFit n (declaredBy references n) t r.clause
  span : spanErrors graph s n (expandedBy graph s imports references n) = []

end

/-- Where nothing is wrong after a part of the resolution, nothing was wrong before it, it added the links,
and what it checks holds. -/
def Findings.Settles (f f' : Findings) (links : List Edge) (checked : Prop) : Prop :=
  f'.errors = [] → f.errors = [] ∧ f'.edges = addLinks f.edges links ∧ checked

namespace Findings.Settles

variable {f f' f'' : Findings} {links links' : List Edge} {checked checked' : Prop}

theorem refl (f : Findings) : f.Settles f [] True := fun none => ⟨none, rfl, trivial⟩

theorem trans (first : f.Settles f' links checked) (second : f'.Settles f'' links' checked') :
    f.Settles f'' (links ++ links') (checked ∧ checked') := by
  intro none
  obtain ⟨none, edges', holds'⟩ := second none
  obtain ⟨none, edges, holds⟩ := first none
  exact ⟨none, by rw [edges', edges, addLinks_append], holds, holds'⟩

theorem imp (settles : f.Settles f' links checked) (weaker : checked → checked') :
    f.Settles f' links checked' := fun none => (settles none).imp_right (And.imp_right weaker)

/-- What adds no edges may follow. -/
theorem silent (first : f.Settles f' links checked) (second : f'.Settles f'' [] checked') :
    f.Settles f'' links (checked ∧ checked') := List.append_nil links ▸ first.trans second

theorem addErrors (f : Findings) (errors : List ResolveError) : f.Settles (f.addErrors errors) [] (errors = []) :=
  fun none => ⟨(List.append_eq_nil_iff.mp none).1, rfl, (List.append_eq_nil_iff.mp none).2⟩

theorem addEdges (f : Findings) {edges : List Edge} (noGhost : ∀ e ∈ edges, e.isGhost = false) :
    f.Settles (f.addEdges edges) edges True :=
  fun none => ⟨none, (addLinks_of_noGhost f.edges noGhost).symm, trivial⟩

theorem keep (f : Findings) (owner : Path) (steps : Option (List ResolvedStep)) :
    f.Settles (f.keep owner steps) [] True := by
  cases steps <;> exact fun none => ⟨none, rfl, trivial⟩

theorem note (f : Findings) (graph : ModuleGraph) (n : Node) (name : Path) (role : GhostRole) (result : Lookup) :
    f.Settles (f.note graph n name role result) (ghostOf n role result) True := by
  intro none
  refine ⟨(Keeps.note f graph n name role result).errors none, ?_, trivial⟩
  cases result with
  | found t =>
    rw [Findings.note]
    split <;> rfl
  | ghost target =>
    rw [Findings.note, ghostOf, addLinks, List.foldl_cons, List.foldl_nil, addLink, Edge.isGhost, Bool.true_and]
    split <;> rfl
  | missing =>
    rw [Findings.note]
    split <;> rfl

end Findings.Settles

variable {graph : ModuleGraph} {s : Surroundings} {imports : ImportTable} {references : List Reference}
  {f : Findings} {n : Node}

theorem settles_noteLookups {found : List (Path × Lookup)} : f.Settles (noteLookups graph n f found)
    (found.flatMap fun l => ghostOf n .narration l.2) True := by
  induction found generalizing f with
  | nil => exact .refl f
  | cons l found ih => exact ((Findings.Settles.note f graph n l.1 .narration l.2).trans ih).imp fun _ => trivial

theorem noGhost_inferencesOf {owner : Path} {step : ResolvedStep} :
    ∀ e ∈ inferencesOf graph owner step, e.isGhost = false := by
  intro e member
  have kind := kind_of_mem_inferencesOf member
  cases e <;> first | rfl | cases kind

theorem settles_resolveStep {step : NarrationStep} :
    f.Settles (resolveStep graph s imports n f step).2 (stepLinks graph s imports n step)
      (∀ t ∈ namedNodes graph s imports n step.conclusions, conclusionErrors n step t = []) := by
  rw [resolveStep, inferences_eq]
  refine ((settles_noteLookups.silent (.addErrors _ _)).trans (.addEdges _ noGhost_inferencesOf)).imp ?_
  exact fun checked => List.flatMap_eq_nil_iff.mp checked.1.2

theorem fst_resolveSteps {steps : List NarrationStep} :
    (resolveSteps graph s imports n f steps).1 = steps.map (resolvedStep graph s imports n) := by
  induction steps generalizing f with
  | nil => rfl
  | cons step steps ih => exact congrArg _ ih

theorem settles_resolveSteps {steps : List NarrationStep} :
    f.Settles (resolveSteps graph s imports n f steps).2 (steps.flatMap (stepLinks graph s imports n))
      (∀ step ∈ steps, ∀ t ∈ namedNodes graph s imports n step.conclusions, conclusionErrors n step t = []) := by
  induction steps generalizing f with
  | nil => exact (Findings.Settles.refl f).imp fun _ => List.forall_mem_nil _
  | cons step steps ih =>
    exact (settles_resolveStep.trans ih).imp fun checked => List.forall_mem_cons.mpr checked

theorem fst_resolveNarration : (resolveNarration graph s imports f n).1 = resolvedNarration graph s imports n := by
  rw [resolveNarration, resolvedNarration]
  cases n.narration with
  | none => rfl
  | some steps => exact congrArg some fst_resolveSteps

theorem settles_resolveNarration : f.Settles (resolveNarration graph s imports f n).2
    ((n.narration.getD []).flatMap (stepLinks graph s imports n))
    (∀ step ∈ n.narration.getD [], ∀ t ∈ namedNodes graph s imports n step.conclusions,
      conclusionErrors n step t = []) := by
  rw [resolveNarration]
  cases n.narration with
  | none => exact (Findings.Settles.refl f).imp fun _ => List.forall_mem_nil _
  | some steps => exact settles_resolveSteps

theorem settles_linkSupposition {t : Node} {clause : Clause} {edge : Edge} (noGhost : edge.isGhost = false) :
    f.Settles (linkSupposition graph n t clause edge f) [edge] (t.kind = .supposition) := by
  have added : f.Settles (f.addEdges [edge]) [edge] True := .addEdges f (by simpa using noGhost)
  rw [linkSupposition]
  dsimp only
  split
  next isSupposition =>
    split
    · exact fun none => (added none).imp_right (And.imp_right fun _ => isSupposition)
    · exact added.imp fun _ => isSupposition
  · exact fun none => absurd (List.append_eq_nil_iff.mp none).2 (List.cons_ne_nil _ _)

theorem settles_linkReference {t : Node} {declared : Nat} {clause : Clause} :
    f.Settles (linkReference graph n declared clause t f) (clauseEdge? n.ref t.ref clause).toList
      (IsFit n declared t clause) := by
  cases clause with
  | of => exact .addErrors f _
  | on => exact .addEdges f (by simp [Edge.isGhost])
  | versus => exact settles_linkSupposition rfl
  | contra => exact settles_linkSupposition rfl

theorem fst_resolveReferences {declared : Nat} {own : List Reference} :
    (resolveReferences graph s imports n declared f own).1 = namedTargets graph s imports own := by
  induction own generalizing f with
  | nil => rfl
  | cons r own ih =>
    rw [resolveReferences, namedTargets, List.filterMap_cons, targetOf]
    dsimp only
    cases (lookup graph s imports r.scope r.name).node? with
    | none =>
      rw [ite_self]
      exact ih
    | some t =>
      dsimp only
      rw [ih]
      by_cases isOf : r.clause = .of
      · rw [if_pos isOf, if_pos isOf]
        rfl
      · rw [if_neg isOf, if_neg isOf]
        rfl

theorem settles_resolveReferences {declared : Nat} {own : List Reference} :
    f.Settles (resolveReferences graph s imports n declared f own).2
      (own.flatMap (referenceLinks graph s imports n))
      (∀ r ∈ own, ∀ t, lookup graph s imports r.scope r.name = .found t → IsFit n declared t r.clause) := by
  induction own generalizing f with
  | nil => exact (Findings.Settles.refl f).imp fun _ => List.forall_mem_nil _
  | cons r own ih =>
    have noted := Findings.Settles.note f graph n r.name r.clause.ghostRole (lookup graph s imports r.scope r.name)
    rw [resolveReferences, List.flatMap_cons, referenceLinks]
    dsimp only
    cases result : lookup graph s imports r.scope r.name with
    | found t =>
      rw [result] at noted
      have linked : f.Settles (linkReference graph n declared r.clause t
          (f.note graph n r.name r.clause.ghostRole (.found t))) (clauseLinks n r.clause (.found t))
          (True ∧ IsFit n declared t r.clause) := noted.trans settles_linkReference
      refine (linked.trans ih).imp fun checked => List.forall_mem_cons.mpr ⟨fun t' same => ?_, checked.2⟩
      cases result.symm.trans same
      exact checked.1.2
    | ghost target =>
      rw [result] at noted
      refine (noted.trans ih).imp fun checked => List.forall_mem_cons.mpr ⟨fun t' same => ?_, checked.2⟩
      cases result.symm.trans same
    | missing =>
      rw [result] at noted
      refine (noted.trans ih).imp fun checked => List.forall_mem_cons.mpr ⟨fun t' same => ?_, checked.2⟩
      cases result.symm.trans same

theorem fst_referred : (referred graph s imports references f n).1 =
    namedTargets graph s imports (ownReferences references n) := fst_resolveReferences

theorem settles_foldl_claim {targets : List Node} : f.Settles (targets.foldl (claim graph s n) f) [] True :=
  fun none => ⟨(foldl_claim none).1, edges_foldl_claim, trivial⟩

theorem settles_expand {targets : List Node} {steps : List ResolvedStep} :
    f.Settles (expand graph s n targets steps f) (expansionOfAll n steps (targets.map Node.ref))
      (spanErrors graph s n targets = []) := by
  by_cases some : targets = []
  · subst some
    exact fun none => ⟨none, rfl, rfl⟩
  · rw [expand_eq some, expansionOfAll, if_neg (by simpa using some)]
    have made : ∀ e ∈ [Edge.expansion n.ref (targets.map Node.ref) (originOf steps (targets.map Node.ref))],
        e.isGhost = false := List.forall_mem_singleton.mpr rfl
    exact (((Findings.Settles.addErrors f _).trans settles_foldl_claim).trans (.addEdges _ made)).imp fun checked =>
      checked.1.1

theorem settles_resolveNode : f.Settles (resolveNode graph s imports references f n)
    (nodeLinks graph s imports references n) (IsSettled graph s imports references n) := by
  have referred : (resolveNarration graph s imports f n).2.Settles (referred graph s imports references f n).2
    ((ownReferences references n).flatMap (referenceLinks graph s imports n)) _ := settles_resolveReferences
  rw [resolveNode_eq, fst_referred, fst_resolveNarration]
  refine (((settles_resolveNarration.trans referred).trans settles_expand).silent (.keep _ _ _)).imp ?_
  rintro ⟨⟨⟨conclusions, clauses⟩, span⟩, _⟩
  exact ⟨conclusions, clauses, span⟩

/-- A run over nodes makes what each of them makes. -/
theorem settles_foldl {nodes : List Node} : f.Settles (nodes.foldl (resolveNode graph s imports references) f)
    (nodes.flatMap (nodeLinks graph s imports references))
    (∀ n ∈ nodes, IsSettled graph s imports references n) := by
  induction nodes generalizing f with
  | nil => exact (Findings.Settles.refl f).imp fun _ => List.forall_mem_nil _
  | cons n nodes ih =>
    exact (settles_resolveNode.trans ih).imp fun checked => List.forall_mem_cons.mpr checked

theorem find?_narrations_foldl {nodes : List Node} (distinct : (nodes.map Node.path).Nodup)
    (fresh : ∀ n ∈ nodes, f.narrations.find? n.path = none) :
    ∀ n ∈ nodes, (nodes.foldl (resolveNode graph s imports references) f).narrations.find? n.path =
      resolvedNarration graph s imports n := by
  induction nodes generalizing f with
  | nil => exact fun _ member => nomatch member
  | cons n nodes ih =>
    obtain ⟨unnarrated, fresh⟩ := List.forall_mem_cons.mp fresh
    obtain ⟨notLater, distinct⟩ := List.nodup_cons.mp distinct
    have gains : f.Gains graph n (resolveNarration graph s imports f n).1
      (resolveNode graph s imports references f n) := gains_resolveNode
    refine List.forall_mem_cons.mpr ⟨?_, ih distinct fun n' member => ?_⟩
    · rw [List.foldl_cons, find?_narrations_foldl_of_notMem notLater, gains.narrated unnarrated, fst_resolveNarration]
    · have other : n'.path ≠ n.path := fun same => notLater (same ▸ List.mem_map_of_mem member)
      rw [gains.others n'.path other, fresh n' member]

theorem mem_nodeLinks {e : Edge} : e ∈ nodeLinks graph s imports references n ↔
    (∃ step ∈ n.narration.getD [], e ∈ stepLinks graph s imports n step) ∨
    (∃ r ∈ ownReferences references n, e ∈ referenceLinks graph s imports n r) ∨
    e ∈ expansionOfAll n ((resolvedNarration graph s imports n).getD [])
      ((expandedBy graph s imports references n).map Node.ref) := by
  simp only [nodeLinks, List.mem_append, List.mem_flatMap, or_assoc]

theorem mem_ownReferences {r : Reference} :
    r ∈ ownReferences references n ↔ r ∈ references ∧ r.source = n.path := by
  rw [ownReferences, List.mem_filter, beq_iff_eq]

theorem mem_ghostOf {role : GhostRole} {result : Lookup} {e : Edge} :
    e ∈ ghostOf n role result ↔ ∃ target, result = .ghost target ∧ e = .ghost n.ref target role := by
  cases result <;> simp [ghostOf]

theorem isGhost_of_mem_ghostOf {role : GhostRole} {result : Lookup} {e : Edge} (member : e ∈ ghostOf n role result) :
    e.isGhost = true := by
  obtain ⟨target, _, rfl⟩ := mem_ghostOf.mp member
  rfl

/-- A name of the narration that is lost makes a ghost edge. -/
theorem ghost_mem_nodeLinks {name : Path} {target : NodeRef} (narrated : name ∈ Candidate.narrationNames n)
    (lost : lookup graph s imports n.path name = .ghost target) :
    .ghost n.ref target .narration ∈ nodeLinks graph s imports references n := by
  obtain ⟨step, written, named⟩ := List.mem_flatMap.mp narrated
  obtain ⟨text, named, parsed⟩ := List.mem_filterMap.mp named
  refine mem_nodeLinks.mpr (.inl ⟨step, written, List.mem_append_left _ (List.mem_flatMap.mpr ?_)⟩)
  refine ⟨(name, .ghost target), ?_, List.mem_singleton_self _⟩
  refine List.mem_append.mpr ((List.mem_append.mp (mem_firstOccurrences.mp named)).imp ?_ ?_)
  · exact fun named => mem_lookups.mpr ⟨text, named, parsed, lost.symm⟩
  · exact fun named => mem_lookups.mpr ⟨text, named, parsed, lost.symm⟩

/-- A name that is lost makes a ghost edge. -/
theorem exists_ghost_of_loses {target : NodeRef} (loses : Loses graph s imports references n target) :
    ∃ role, .ghost n.ref target role ∈ nodeLinks graph s imports references n := by
  obtain ⟨scope, name, mentions, lost⟩ := loses
  rcases mentions with ⟨rfl, narrated⟩ | ⟨r, member, atNode, rfl, rfl⟩
  · exact ⟨.narration, ghost_mem_nodeLinks narrated lost⟩
  · refine ⟨r.clause.ghostRole, mem_nodeLinks.mpr (.inr (.inl ⟨r, mem_ownReferences.mpr ⟨member, atNode⟩, ?_⟩))⟩
    rw [referenceLinks, lost]
    exact List.mem_singleton_self _

/-- The edge of a clause tells which clause it is, and its ends. -/
theorem clauseEdge?_inj {a b a' b' : NodeRef} {clause clause' : Clause} {e : Edge}
    (made : clauseEdge? a b clause = some e) (made' : clauseEdge? a' b' clause' = some e) :
    clause = clause' ∧ a = a' ∧ b = b' := by
  cases clause <;> cases made <;> cases clause' <;> cases made' <;> exact ⟨rfl, rfl, rfl⟩

theorem isPlain_clauseEdge? {a b : NodeRef} {clause : Clause} {e : Edge} (made : clauseEdge? a b clause = some e) :
    e.isGhost = false ∧ e.kind ≠ .inference ∧ e.isExpansion = false := by
  cases clause <;> cases made <;> exact ⟨rfl, nofun, rfl⟩

theorem mem_clauseLinks {clause : Clause} {result : Lookup} {e : Edge} : e ∈ clauseLinks n clause result ↔
    (∃ t, result = .found t ∧ clauseEdge? n.ref t.ref clause = some e) ∨ e ∈ ghostOf n clause.ghostRole result := by
  cases result <;> simp [clauseLinks, ghostOf]

theorem mem_stepLinks_cases {step : NarrationStep} {e : Edge} (member : e ∈ stepLinks graph s imports n step) :
    e.isGhost = true ∨ e ∈ inferencesOf graph n.path (resolvedStep graph s imports n step) := by
  refine (List.mem_append.mp member).imp_left fun ghost => ?_
  obtain ⟨l, _, ghost⟩ := List.mem_flatMap.mp ghost
  exact isGhost_of_mem_ghostOf ghost

/-- An edge of a node is a ghost, an inference of a step, made for a name in a clause, or the expansion. -/
theorem mem_nodeLinks_cases {e : Edge} (member : e ∈ nodeLinks graph s imports references n) :
    e.isGhost = true ∨
    (∃ step ∈ n.narration.getD [], e ∈ inferencesOf graph n.path (resolvedStep graph s imports n step)) ∨
    (∃ r ∈ ownReferences references n, ∃ t, lookup graph s imports r.scope r.name = .found t ∧
      clauseEdge? n.ref t.ref r.clause = some e) ∨
    expandedBy graph s imports references n ≠ [] ∧ e = .expansion n.ref
      ((expandedBy graph s imports references n).map Node.ref)
      (originOf ((resolvedNarration graph s imports n).getD []) ((expandedBy graph s imports references n).map Node.ref)) := by
  rcases mem_nodeLinks.mp member with ⟨step, written, member⟩ | ⟨r, own, member⟩ | member
  · exact (mem_stepLinks_cases member).imp_right fun inference => .inl ⟨step, written, inference⟩
  · rcases mem_clauseLinks.mp member with ⟨t, found, linked⟩ | ghost
    · exact .inr (.inr (.inl ⟨r, own, t, found, linked⟩))
    · exact .inl (isGhost_of_mem_ghostOf ghost)
  · rw [expansionOfAll] at member
    split at member
    · cases member
    next some =>
      rw [List.map_eq_nil_iff] at some
      exact .inr (.inr (.inr ⟨some, List.mem_singleton.mp member⟩))

/-- An inference of a node is one of a step. -/
theorem exists_step_of_mem_nodeLinks {e : Edge} (inference : e.kind = .inference)
    (member : e ∈ nodeLinks graph s imports references n) : ∃ step ∈ n.narration.getD [],
      e ∈ inferencesOf graph n.path (resolvedStep graph s imports n step) := by
  rcases mem_nodeLinks_cases member with ghost | inferred | ⟨r, _, t, _, linked⟩ | ⟨_, rfl⟩
  · cases e with
    | ghost => cases inference
    | _ => cases ghost
  · exact inferred
  · exact absurd inference (isPlain_clauseEdge? linked).2.1
  · cases inference

theorem expansion_mem_nodeLinks_iff {a : NodeRef} {targets : List NodeRef} {origin : ExpansionOrigin} :
    .expansion a targets origin ∈ nodeLinks graph s imports references n ↔
      expandedBy graph s imports references n ≠ [] ∧ a = n.ref ∧
      targets = (expandedBy graph s imports references n).map Node.ref ∧
      origin = originOf ((resolvedNarration graph s imports n).getD []) targets := by
  constructor
  · intro member
    rcases mem_nodeLinks_cases member with ghost | ⟨_, _, inference⟩ | ⟨r, _, t, _, linked⟩ | ⟨some, same⟩
    · cases ghost
    · cases kind_of_mem_inferencesOf inference
    · cases (isPlain_clauseEdge? linked).2.2
    · cases same
      exact ⟨some, rfl, rfl, rfl⟩
  · rintro ⟨some, rfl, rfl, rfl⟩
    refine mem_nodeLinks.mpr (.inr (.inr ?_))
    rw [expansionOfAll, if_neg (by simpa using some)]
    exact List.mem_singleton_self _

/-- The edge of a clause is made for a name in it. -/
theorem exists_of_clauseEdge_mem {a b : NodeRef} {clause : Clause} {e : Edge}
    (made : clauseEdge? a b clause = some e) (member : e ∈ nodeLinks graph s imports references n) :
    a = n.ref ∧ ∃ r ∈ ownReferences references n, r.clause = clause ∧
      ∃ t, lookup graph s imports r.scope r.name = .found t ∧ b = t.ref := by
  obtain ⟨noGhost, noInference, noExpansion⟩ := isPlain_clauseEdge? made
  rcases mem_nodeLinks_cases member with ghost | ⟨_, _, inference⟩ | ⟨r, own, t, found, linked⟩ | ⟨_, rfl⟩
  · rw [noGhost] at ghost
    cases ghost
  · exact absurd (kind_of_mem_inferencesOf inference) noInference
  · obtain ⟨same, rfl, rfl⟩ := clauseEdge?_inj made linked
    exact ⟨rfl, r, own, same.symm, t, found, rfl⟩
  · cases noExpansion

theorem mem_namedTargets {own : List Reference} {t : Node} : t ∈ namedTargets graph s imports own ↔
    ∃ r ∈ own, r.clause = .of ∧ lookup graph s imports r.scope r.name = .found t := by
  rw [namedTargets, List.mem_filterMap]
  refine exists_congr fun r => and_congr_right fun _ => ?_
  rw [targetOf]
  split
  next isOf =>
    refine ⟨fun found => ⟨isOf, Lookup.eq_found_of_node? found⟩, fun ⟨_, found⟩ => ?_⟩
    rw [found, Lookup.node?]
  next other => exact ⟨fun none => (nomatch none), fun ⟨isOf, _⟩ => absurd isOf other⟩

end Resolution

open Resolution

/-- The edges of a resolved module are those of its nodes, and the narrations theirs. Nothing is wrong with
any of them. -/
structure Candidate.SettlesTo (c : Candidate) (s : Surroundings) (m : ResolvedModule) : Prop where
  graph : m.graph = { c.graph with
    edges := addLinks [] ((c.graph.walk.getD []).flatMap
      (nodeLinks c.graph s (c.imports.mergedWith s.imports) c.references)) }
  narrated : ∀ n ∈ c.graph.walk.getD [],
    m.narrations.find? n.path = resolvedNarration c.graph s (c.imports.mergedWith s.imports) n
  others : ∀ path ∉ (c.graph.walk.getD []).map Node.path, m.narrations.find? path = none
  settled : ∀ n ∈ c.graph.walk.getD [], IsSettled c.graph s (c.imports.mergedWith s.imports) c.references n
  leads : ∀ n ∈ c.graph.walk.getD [], ∀ scope name, Mentions c.references n scope name →
    lookup c.graph s (c.imports.mergedWith s.imports) scope name ≠ .missing

theorem Candidate.settlesTo {module : Path} {version : Version} {source : Source} {c : Candidate}
    (built : Candidate.build module version source = .ok c) {s : Surroundings} {m : ResolvedModule}
    (resolved : c.resolve s = .ok m) : c.SettlesTo s m := by
  obtain ⟨noErrors, _⟩ := resolve_eq_ok resolved
  obtain ⟨graph, _, narrations⟩ := resolve_eq_ok_of_build built s resolved
  obtain ⟨_, edges, settled⟩ := settles_foldl noErrors
  have narrated : ∀ n ∈ c.graph.walk.getD [], (findings c s).narrations.find? n.path = _ :=
    find?_narrations_foldl (nodup_walk built) fun _ _ => rfl
  have others : ∀ path ∉ (c.graph.walk.getD []).map Node.path, (findings c s).narrations.find? path = _ :=
    fun path => find?_narrations_foldl_of_notMem
  refine ⟨?_, narrations ▸ narrated, narrations ▸ others, settled, fun n inside scope name mentions missing => ?_⟩
  · rw [graph]
    exact congrArg _ edges
  · have misses : (findings c s).Misses n.path name :=
      misses_findings.mpr ⟨n, inside, rfl, scope, mentions, missing⟩
    rw [Findings.Misses, noErrors] at misses
    cases misses

/-- A walk through a built module meets the nodes that are stored. -/
theorem Candidate.mem_walk_iff {module : Path} {version : Version} {source : Source} {c : Candidate}
    (built : Candidate.build module version source = .ok c) {n : Node} :
    n ∈ c.graph.walk.getD [] ↔ c.graph.node? n.path = some n :=
  (walk_of_build built).mem_iff.trans (isForest_of_build built).keyed.mem_values_iff

theorem Candidate.SettlesTo.mem_edges {c : Candidate} {s : Surroundings} {m : ResolvedModule}
    (settles : c.SettlesTo s m) {e : Edge} : e ∈ m.graph.edges ↔ ∃ n ∈ c.graph.walk.getD [],
      e ∈ nodeLinks c.graph s (c.imports.mergedWith s.imports) c.references n := by
  rw [settles.graph, mem_addLinks, List.mem_flatMap]
  exact or_iff_right List.not_mem_nil

/-- Every narration is that of a node. -/
theorem Candidate.SettlesTo.exists_of_narrated {c : Candidate} {s : Surroundings} {m : ResolvedModule}
    (settles : c.SettlesTo s m) {owner : Path} {steps : List ResolvedStep}
    (narrated : m.narrations.find? owner = some steps) : ∃ n ∈ c.graph.walk.getD [], n.path = owner ∧
      ∃ written, n.narration = some written ∧
        steps = written.map (resolvedStep c.graph s (c.imports.mergedWith s.imports) n) := by
  obtain ⟨n, inside, rfl⟩ : ∃ n ∈ c.graph.walk.getD [], n.path = owner := by
    refine List.mem_map.mp (Classical.byContradiction fun outside => ?_)
    rw [settles.others owner outside] at narrated
    cases narrated
  rw [settles.narrated n inside, resolvedNarration] at narrated
  obtain ⟨written, narration, rfl⟩ := Option.map_eq_some_iff.mp narrated
  exact ⟨n, inside, rfl, written, narration, rfl⟩

end Deductions
