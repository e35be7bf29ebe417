import Deductions.Proofs.Home
import Deductions.Proofs.Settled

namespace Deductions

/-- The kind of block that the clause stands on. -/
def Clause.ownerKind : Clause → NodeKind
  | .of => .deduction
  | .on => .note
  | .versus => .supposition
  | .contra => .falsum

/-- A clause stands on a block of its kind. -/
theorem Clauses.IsWellFormed.kind_eq {kind : NodeKind} {c : Clauses} (wellFormed : c.IsWellFormed kind)
    {clause : Clause} (named : c.names clause ≠ []) : kind = clause.ownerKind := by
  cases clause with
  | of => exact wellFormed.of named
  | on => exact wellFormed.on named
  | versus => exact wellFormed.versus named
  | contra => exact wellFormed.contra named

theorem PlacedBlock.kind_of_mem_references {p : PlacedBlock} {module : Path} {r : Reference}
    (wellFormed : p.block.header.clauses.IsWellFormed p.block.header.kind) (member : r ∈ p.references module) :
    r.source = p.path module ∧ p.block.header.kind = r.clause.ownerKind := by
  obtain ⟨clause, _, member⟩ := List.mem_flatMap.mp member
  obtain ⟨rfl, own⟩ := mem_buildClause member
  refine ⟨own, wellFormed.kind_eq fun none => ?_⟩
  rw [PlacedBlock.clause, none] at member
  cases member

section

variable {module : Path} {version : Version} {source : Source} {c : Candidate} (wellFormed : source.IsWellFormed)
  (built : Candidate.build module version source = .ok c)
include wellFormed built

/-- A name in a clause is one of a node of the kind that the clause stands on. -/
theorem Candidate.kind_of_reference {r : Reference} (member : r ∈ c.references) :
    ∃ n, c.graph.node? r.source = some n ∧ n.kind = r.clause.ownerKind := by
  obtain ⟨_, references, _⟩ := grows_of_build wellFormed built
  obtain ⟨sameModule, _⟩ := frame_of_build built
  have sameModule : c.graph.module = module := sameModule
  rw [references] at member
  obtain ⟨p, inside, member⟩ := List.mem_flatMap.mp member
  obtain ⟨own, kind⟩ := PlacedBlock.kind_of_mem_references
    (Source.isTidy_of_mem_outline wellFormed inside).header.2 member
  have stored := (isOutline_of_build wellFormed built).stored p inside
  rw [sameModule, ← own] at stored
  exact ⟨_, stored, kind⟩

theorem Candidate.kind_of_ownReference {n : Node} (inside : n ∈ c.graph.walk.getD []) {r : Reference}
    (own : r ∈ Resolution.ownReferences c.references n) : n.kind = r.clause.ownerKind := by
  obtain ⟨written, atNode⟩ := Resolution.mem_ownReferences.mp own
  obtain ⟨n', stored, kind⟩ := kind_of_reference wellFormed built written
  rw [atNode, (mem_walk_iff built).mp inside] at stored
  cases stored
  exact kind

/-- Every name in a clause is one of a node of the module. -/
theorem Candidate.exists_mem_ownReferences {r : Reference} (member : r ∈ c.references) :
    ∃ n ∈ c.graph.walk.getD [], r ∈ Resolution.ownReferences c.references n := by
  obtain ⟨n, stored, _⟩ := kind_of_reference wellFormed built member
  have own : n.path = r.source := isKeyed_of_build built _ n stored
  exact ⟨n, (mem_walk_iff built).mpr (own ▸ stored), Resolution.mem_ownReferences.mpr ⟨member, own.symm⟩⟩

end

namespace Resolution

theorem targetErrors_eq_nil {n t : Node} {declared : Nat} (none : targetErrors n t declared = []) :
    (t.kind = .assertion ∨ t.kind = .deduction ∨ t.kind = .subDeduction) ∧
      (1 < declared → t.kind = .assertion) := by
  rw [targetErrors] at none
  split at none
  · split at none
    next isAssertion => exact ⟨.inl isAssertion, fun _ => isAssertion⟩
    next => cases none
  next few =>
    split at none
    next expandable =>
      refine ⟨?_, fun several => absurd several few⟩
      cases kind : t.kind <;> simp_all [NodeKind.isDeductive]
    next => cases none

theorem conclusionErrors_eq_nil {n t : Node} {step : NarrationStep} (none : conclusionErrors n step t = []) :
    t.kind ≠ .subDeduction ∧
      (step.connective = .suppose ↔ t.kind = .supposition ∨ t.kind = .introduction) := by
  rw [conclusionErrors] at none
  split at none
  · cases none
  next other =>
    split at none
    next fits =>
      refine ⟨other, ?_⟩
      cases kind : t.kind <;> simp_all [NodeKind.isModal]
    next => cases none

variable {graph : ModuleGraph} {s : Surroundings} {imports : ImportTable} {references : List Reference} {n : Node}

theorem topLevel_eq_of_spanErrors {targets : List Node} (none : spanErrors graph s n targets = []) :
    ∀ t ∈ targets, ∀ t' ∈ targets, topLevel graph s t = topLevel graph s t' := by
  have kept : ∀ t ∈ targets, topLevel graph s t ∈ firstOccurrences (targets.map (topLevel graph s)) :=
    fun t member => mem_firstOccurrences.mpr (List.mem_map_of_mem member)
  intro t member t' member'
  have first := kept t member
  have second := kept t' member'
  rw [spanErrors] at none
  split at none
  next empty =>
    rw [empty] at first
    cases first
  next single =>
    rw [single, List.mem_singleton] at first second
    exact first.trans second.symm
  next => cases none

/-- What names in a narration lead to. -/
theorem exists_of_mem_namedNodes {names : List String} {t : Node}
    (member : t ∈ namedNodes graph s imports n names) : ∃ text ∈ names, ∃ name,
      (Path.parse text).toOption = some name ∧ lookup graph s imports n.path name = .found t := by
  obtain ⟨l, inside, found⟩ := List.mem_filterMap.mp (mem_of_mem_firstBy member)
  obtain ⟨text, named, parsed, same⟩ := mem_lookups.mp inside
  exact ⟨text, named, l.1, parsed, same ▸ Lookup.eq_found_of_node? found⟩

theorem mem_expandedBy {t : Node} (member : t ∈ expandedBy graph s imports references n) :
    ∃ r ∈ ownReferences references n, r.clause = .of ∧ lookup graph s imports r.scope r.name = .found t :=
  mem_namedTargets.mp (mem_of_mem_firstBy member)

/-- Nodes are expanded for at least as many names. -/
theorem length_namedTargets_le {own : List Reference} :
    (namedTargets graph s imports own).length ≤ (own.filter fun r => r.clause == .of).length := by
  induction own with
  | nil => exact Nat.le_refl _
  | cons r own ih =>
    rw [namedTargets, List.filterMap_cons, targetOf, List.filter_cons]
    by_cases isOf : r.clause = .of
    · rw [if_pos isOf, if_pos (beq_iff_eq.mpr isOf)]
      split
      · exact Nat.le_succ_of_le ih
      · exact Nat.succ_le_succ ih
    · rw [if_neg isOf, if_neg fun same => isOf (beq_iff_eq.mp same)]
      exact ih

theorem length_expandedBy_le : (expandedBy graph s imports references n).length ≤ declaredBy references n :=
  Nat.le_trans (length_firstBy_le _ _) length_namedTargets_le

section

variable (graph s imports references n)

/-- A name in an `of` clause of `n` leads to `t` in the graph `g`. -/
def IsTargetIn (g : ModuleGraph) (t : Node) : Prop :=
  ∃ r ∈ references, r.clause = .of ∧ r.source = n.path ∧ lookup graph s imports r.scope r.name = .found t ∧
    homeOf graph s imports r.scope r.name = some g

/-- The targets lie in one top-level declaration, each in a graph in which `n` names it. -/
def AreInOneDeclaration (targets : List NodeRef) : Prop :=
  ∃ d : NodeRef, ∀ r ∈ targets, ∃ g t, t.ref = r ∧ IsTargetIn graph s imports references n g t ∧
    (g.topLevelOf r.path).map Node.ref = some d

/-- Each target is named in the graph that owns it. -/
def AreOwned (targets : List NodeRef) : Prop :=
  ∀ r ∈ targets, ∃ g t, t.ref = r ∧ IsTargetIn graph s imports references n g t ∧ ownerOf graph s r = some g

end

section

variable (graph s imports references)

/-- What the names in the `of` clause of a node lead to, each with the declaration around it where it is
found. -/
def declarationsOf (source : Path) : List (NodeRef × NodeRef) :=
  (references.filter fun r => r.clause = .of ∧ r.source = source).filterMap fun r => do
    let t ← (lookup graph s imports r.scope r.name).node?
    let g ← homeOf graph s imports r.scope r.name
    let d ← g.topLevelOf t.path
    return (t.ref, d.ref)

end

theorem areInOneDeclaration_iff_declarationsOf {targets : List NodeRef} :
    AreInOneDeclaration graph s imports references n targets ↔
      ∃ d, ∀ r ∈ targets, (r, d) ∈ declarationsOf graph s imports references n.path := by
  refine exists_congr fun d => forall₂_congr fun target _ => ?_
  simp only [declarationsOf, List.mem_filterMap, List.mem_filter, decide_eq_true_eq, bind, Option.bind_eq_some_iff,
    pure, Option.some.injEq, Prod.mk.injEq]
  constructor
  · rintro ⟨g, t, rfl, ⟨r, written, isOf, own, found, home⟩, top⟩
    obtain ⟨d, atTop, rfl⟩ := Option.map_eq_some_iff.mp top
    exact ⟨r, ⟨written, isOf, own⟩, t, by rw [found, Lookup.node?], g, home, d, atTop, rfl, rfl⟩
  · rintro ⟨r, ⟨written, isOf, own⟩, t, found, g, home, d, top, rfl, rfl⟩
    exact ⟨g, t, rfl, ⟨r, written, isOf, own, Lookup.eq_found_of_node? found, home⟩,
      Option.map_eq_some_iff.mpr ⟨d, top, rfl⟩⟩

/-- What a target looks like to the check for a common declaration. -/
theorem topLevel_of_ownerOf {t : Node} {g : ModuleGraph} {d : Node} (owner : ownerOf graph s t.ref = some g)
    (top : g.topLevelOf t.path = some d) : topLevel graph s t = some d.path := by
  rw [topLevel_eq, owner, Option.bind_some, top, Option.map_some]

section

variable {source : Source} (outline : graph.IsOutline source) (compiled : s.library.IsCompiled)
include outline compiled

theorem IsTargetIn.exists_topLevelOf {g : ModuleGraph} {t : Node}
    (isTarget : IsTargetIn graph s imports references n g t) :
    ∃ d, g.topLevelOf t.path = some d ∧ d.version = t.version := by
  obtain ⟨_, _, _, _, found, home⟩ := isTarget
  exact Resolution.exists_topLevelOf outline compiled found home

theorem IsTargetIn.ownerOf_or_unpinned {g : ModuleGraph} {t : Node}
    (isTarget : IsTargetIn graph s imports references n g t) :
    ownerOf graph s t.ref = some g ∨ s.library.owner t.path none = some g := by
  obtain ⟨_, _, _, _, found, home⟩ := isTarget
  exact Resolution.ownerOf_or_unpinned outline compiled found home

/-- Where several targets were accepted, each of which is named in the graph that owns it, they lie in one
declaration just if they are of one version. -/
theorem areInOneDeclaration_iff {targets : List Node} (accepted : spanErrors graph s n targets = [])
    (owned : AreOwned graph s imports references n (targets.map Node.ref)) (nonempty : targets ≠ []) :
    AreInOneDeclaration graph s imports references n (targets.map Node.ref) ↔
      ∀ r ∈ targets.map Node.ref, ∀ r' ∈ targets.map Node.ref, r.version = r'.version := by
  constructor
  · rintro ⟨d, inside⟩
    have version : ∀ r ∈ targets.map Node.ref, r.version = d.version := by
      intro r member
      obtain ⟨g, t, rfl, isTarget, top⟩ := inside r member
      obtain ⟨d', top', version⟩ := isTarget.exists_topLevelOf outline compiled
      change (g.topLevelOf t.path).map Node.ref = some d at top
      rw [top'] at top
      cases top
      exact version.symm
    exact fun r member r' member' => (version r member).trans (version r' member').symm
  · intro oneVersion
    have declared : ∀ t ∈ targets, ∃ g t' d, t'.ref = t.ref ∧ IsTargetIn graph s imports references n g t' ∧
        g.topLevelOf t.path = some d ∧ d.version = t.version ∧ topLevel graph s t = some d.path := by
      intro t member
      obtain ⟨g, t', same, isTarget, owner⟩ := owned t.ref (List.mem_map_of_mem member)
      obtain ⟨d, top, version⟩ := isTarget.exists_topLevelOf outline compiled
      have path : t'.path = t.path := congrArg NodeRef.path same
      rw [path] at top
      exact ⟨g, t', d, same, isTarget, top, version.trans (congrArg NodeRef.version same),
        topLevel_of_ownerOf owner top⟩
    obtain ⟨first, inside⟩ := List.exists_mem_of_ne_nil targets nonempty
    obtain ⟨_, _, d, _, _, _, version, top⟩ := declared first inside
    refine ⟨d.ref, List.forall_mem_map.mpr fun t member => ?_⟩
    obtain ⟨g, t', d', same, isTarget, top', version', seen⟩ := declared t member
    have path : d'.path = d.path := by
      rw [topLevel_eq_of_spanErrors accepted t member first inside, top] at seen
      exact (Option.some.inj seen).symm
    have sameVersion : d'.version = d.version := by
      rw [version', version]
      exact oneVersion t.ref (List.mem_map_of_mem member) first.ref (List.mem_map_of_mem inside)
    refine ⟨g, t', same, isTarget, ?_⟩
    change (g.topLevelOf t.path).map Node.ref = some d.ref
    rw [top', Option.map_some, Node.ref, path, sameVersion]
    rfl

end

section

variable (graph s imports references n)

/-- The targets are nodes that an `of` clause may name. -/
structure AreExpandable (targets : List NodeRef) : Prop where
  named : ∃ ts : List Node, targets = ts.map Node.ref ∧ ∀ t ∈ ts,
    (∃ g, IsTargetIn graph s imports references n g t) ∧
    (t.kind = .assertion ∨ t.kind = .deduction ∨ t.kind = .subDeduction) ∧
    (1 < targets.length → t.kind = .assertion)
  /-- A node is named in the graph that owns it, unless it is looked up without a version. -/
  owned : ∀ g t, IsTargetIn graph s imports references n g t →
    ownerOf graph s t.ref = some g ∨ s.library.owner t.path none = some g
  together : 1 < targets.length → AreOwned graph s imports references n targets →
    (AreInOneDeclaration graph s imports references n targets ↔
      ∀ r ∈ targets, ∀ r' ∈ targets, r.version = r'.version)

end

end Resolution

open Resolution

/-- The edges of a module go from nodes of a kind to nodes of a kind, which the names of the source lead
to, and steps conclude what they may. -/
structure ResolvedModule.IsTyped (m : ResolvedModule) (c : Candidate) (s : Surroundings) : Prop where
  sources : m.graph.expansionSources.Nodup
  targets : m.graph.expandedPaths.Nodup
  expansion : ∀ source targets origin, .expansion source targets origin ∈ m.graph.edges →
    ∃ n, m.graph.node? source.path = some n ∧ n.ref = source ∧ n.kind = .deduction ∧
      AreExpandable c.graph s (c.imports.mergedWith s.imports) c.references n targets
  contradiction : ∀ source target, .contradiction source target ∈ m.graph.edges →
    ∃ n t, m.graph.node? source.path = some n ∧ n.ref = source ∧ n.kind = .falsum ∧
      Reaches c.graph s (c.imports.mergedWith s.imports) c.references n t ∧ t.ref = target ∧ t.kind = .supposition
  alternativeCase : ∀ source target, .alternativeCase source target ∈ m.graph.edges →
    ∃ n t, m.graph.node? source.path = some n ∧ n.ref = source ∧ n.kind = .supposition ∧
      Reaches c.graph s (c.imports.mergedWith s.imports) c.references n t ∧ t.ref = target ∧ t.kind = .supposition
  annotates : ∀ source target, .annotates source target ∈ m.graph.edges →
    ∃ n, m.graph.node? source.path = some n ∧ n.ref = source ∧ n.kind = .note
  conclusions : ∀ owner steps, m.narrations.find? owner = some steps → ∃ n, m.graph.node? owner = some n ∧
    ∀ step ∈ steps, ∃ ts : List Node, step.conclusions = ts.map Node.ref ∧ ∀ t ∈ ts,
      Reaches c.graph s (c.imports.mergedWith s.imports) c.references n t ∧ t.kind ≠ .subDeduction ∧
      (step.connective = .suppose ↔ t.kind = .supposition ∨ t.kind = .introduction)

section

variable {module : Path} {version : Version} {source : Source} {c : Candidate} (wellFormed : source.IsWellFormed)
  (built : Candidate.build module version source = .ok c) {s : Surroundings} {m : ResolvedModule}
  (resolved : c.resolve s = .ok m)
include built resolved

theorem Candidate.node?_of_mem_walk {n : Node} (inside : n ∈ c.graph.walk.getD []) :
    m.graph.node? n.path = some n := by
  rw [(settlesTo built resolved).graph]
  exact (mem_walk_iff built).mp inside

/-- What a narration concludes is what its names lead to, and was checked. -/
theorem Candidate.conclusions_of_resolve {owner : Path} {steps : List ResolvedStep}
    (narrated : m.narrations.find? owner = some steps) : ∃ n, m.graph.node? owner = some n ∧
    ∀ step ∈ steps, ∃ ts : List Node, step.conclusions = ts.map Node.ref ∧ ∀ t ∈ ts,
      Reaches c.graph s (c.imports.mergedWith s.imports) c.references n t ∧ t.kind ≠ .subDeduction ∧
      (step.connective = .suppose ↔ t.kind = .supposition ∨ t.kind = .introduction) := by
  have settles := settlesTo built resolved
  obtain ⟨n, inside, rfl, written, narration, rfl⟩ := settles.exists_of_narrated narrated
  refine ⟨n, node?_of_mem_walk built resolved inside, fun step member => ?_⟩
  obtain ⟨step, inNarration, rfl⟩ := List.mem_map.mp member
  refine ⟨_, rfl, fun t named => ?_⟩
  obtain ⟨text, inStep, name, parsed, found⟩ := exists_of_mem_namedNodes named
  have mentioned : name ∈ narrationNames n := by
    rw [narrationNames, narration, Option.getD_some]
    refine List.mem_flatMap.mpr ⟨step, inNarration, List.mem_filterMap.mpr ⟨text, ?_, parsed⟩⟩
    exact mem_firstOccurrences.mpr (List.mem_append_right _ inStep)
  refine ⟨⟨n.path, name, .inl ⟨rfl, mentioned⟩, found⟩, conclusionErrors_eq_nil (n := n) ?_⟩
  refine (settles.settled n inside).conclusions step ?_ t named
  rw [narration, Option.getD_some]
  exact inNarration

/-- No target of an expansion is there twice. -/
theorem Candidate.nodup_targets {e : Edge} (member : e ∈ m.graph.expansions) :
    (e.targets.map NodeRef.path).Nodup := by
  obtain ⟨member, isExpansion⟩ := List.mem_filter.mp member
  cases e with
  | expansion a targets origin =>
    obtain ⟨n, _, member⟩ := (settlesTo built resolved).mem_edges.mp member
    obtain ⟨_, _, rfl, _⟩ := expansion_mem_nodeLinks_iff.mp member
    rw [Edge.targets, List.map_map]
    exact nodup_firstBy Node.path _
  | _ => cases isExpansion

include wellFormed

/-- The edge of a clause goes from a node of the kind of the clause to one that it may name. -/
theorem Candidate.exists_ends (clause : Clause) {a b : NodeRef} {e : Edge} (made : clauseEdge? a b clause = some e)
    (member : e ∈ m.graph.edges) : ∃ n t declared, m.graph.node? a.path = some n ∧ n.ref = a ∧
      n.kind = clause.ownerKind ∧
      Reaches c.graph s (c.imports.mergedWith s.imports) c.references n t ∧ t.ref = b ∧ IsFit n declared t clause := by
  have settles := settlesTo built resolved
  obtain ⟨n, inside, member⟩ := settles.mem_edges.mp member
  obtain ⟨rfl, r, own, rfl, t, found, rfl⟩ := exists_of_clauseEdge_mem made member
  have fit := (settles.settled n inside).clauses r own t found
  have kind := kind_of_ownReference wellFormed built inside own
  obtain ⟨written, atNode⟩ := mem_ownReferences.mp own
  have reaches : Reaches c.graph s (c.imports.mergedWith s.imports) c.references n t :=
    ⟨r.scope, r.name, .inr ⟨r, written, atNode, rfl, rfl⟩, found⟩
  exact ⟨n, t, _, node?_of_mem_walk built resolved inside, rfl, kind, reaches, rfl, fit⟩

/-- An expansion goes from a deduction to nodes that its `of` clause may name. -/
theorem Candidate.areExpandable_of_resolve (compiled : s.library.IsCompiled) {from' : NodeRef}
    {targets : List NodeRef} {origin : ExpansionOrigin} (member : .expansion from' targets origin ∈ m.graph.edges) :
    ∃ n, m.graph.node? from'.path = some n ∧ n.ref = from' ∧ n.kind = .deduction ∧
      AreExpandable c.graph s (c.imports.mergedWith s.imports) c.references n targets := by
  have settles := settlesTo built resolved
  obtain ⟨n, inside, member⟩ := settles.mem_edges.mp member
  have stored := node?_of_mem_walk built resolved inside
  have settled := settles.settled n inside
  have outline := isOutline_of_build wellFormed built
  obtain ⟨some, rfl, rfl, _⟩ := expansion_mem_nodeLinks_iff.mp member
  have several : 1 < ((expandedBy c.graph s (c.imports.mergedWith s.imports) c.references n).map Node.ref).length →
      1 < declaredBy c.references n := by
    rw [List.length_map]
    exact fun several => Nat.lt_of_lt_of_le several length_expandedBy_le
  refine ⟨n, stored, rfl, ?_, ?_⟩
  · obtain ⟨t, expanded⟩ := List.exists_mem_of_ne_nil _ some
    obtain ⟨r, own, isOf, _⟩ := mem_expandedBy expanded
    rw [kind_of_ownReference wellFormed built inside own, isOf]
    rfl
  constructor
  case named =>
    refine ⟨_, rfl, fun t expanded => ?_⟩
    obtain ⟨r, own, isOf, found⟩ := mem_expandedBy expanded
    have fit := settled.clauses r own t found
    rw [isOf] at fit
    obtain ⟨kinds, onlyAssertions⟩ := targetErrors_eq_nil fit
    obtain ⟨written, atNode⟩ := mem_ownReferences.mp own
    obtain ⟨g, _, home, _⟩ := exists_home found
    exact ⟨⟨g, r, written, isOf, atNode, found, home⟩, kinds, fun more => onlyAssertions (several more)⟩
  case owned => exact fun g t isTarget => isTarget.ownerOf_or_unpinned outline compiled
  case together => exact fun _ owned => areInOneDeclaration_iff outline compiled settled.span owned some

end

/-- Where expansions are single, no path is a target twice. -/
theorem ModuleGraph.ExpandsSingly.nodup_expandedPaths {g : ModuleGraph} (single : g.ExpandsSingly)
    (each : ∀ e ∈ g.expansions, (e.targets.map NodeRef.path).Nodup) : g.expandedPaths.Nodup := by
  rw [expandedPaths, List.nodup_flatMap]
  refine ⟨each, (List.pairwise_map.mp single.distinct).imp_of_mem ?_⟩
  intro e e' member member' different path first second
  obtain ⟨t, atEnd, rfl⟩ := List.mem_map.mp first
  obtain ⟨t', atEnd', same⟩ := List.mem_map.mp second
  exact different (single.targets e member e' member' t atEnd t' atEnd' same.symm)

/-- Every module that compiles against a compiled library is typed. -/
theorem ModuleSource.isTyped_of_compile {s : ModuleSource} {surroundings : Surroundings} {m : ResolvedModule}
    (compiled : surroundings.library.IsCompiled) (compiles : s.compile surroundings = .ok m) :
    ∃ c, s.build = .ok c ∧ m.IsTyped c surroundings := by
  obtain ⟨c, built, resolved⟩ := ModuleSource.compile_eq_ok.mp compiles
  obtain ⟨source, wellFormed, build⟩ := s.build_eq_ok built
  have single := (ModuleSource.expandsSingly built resolved).1
  refine ⟨c, built, ?_⟩
  constructor
  case sources => exact single.distinct
  case targets => exact single.nodup_expandedPaths fun e => Candidate.nodup_targets build resolved
  case expansion =>
    exact fun _ _ _ => Candidate.areExpandable_of_resolve wellFormed build resolved compiled
  case contradiction =>
    intro from' target member
    obtain ⟨n, t, _, stored, same, kind, reaches, same', fit⟩ :=
      Candidate.exists_ends wellFormed build resolved .contra rfl member
    exact ⟨n, t, stored, same, kind, reaches, same', fit⟩
  case alternativeCase =>
    intro from' target member
    obtain ⟨n, t, _, stored, same, kind, reaches, same', fit⟩ :=
      Candidate.exists_ends wellFormed build resolved .versus rfl member
    exact ⟨n, t, stored, same, kind, reaches, same', fit⟩
  case annotates =>
    intro from' target member
    obtain ⟨n, _, _, stored, same, kind, _⟩ :=
      Candidate.exists_ends wellFormed build resolved .on rfl member
    exact ⟨n, stored, same, kind⟩
  case conclusions => exact fun _ _ => Candidate.conclusions_of_resolve build resolved

/-- A library of modules that compile by themselves. -/
def libraryOf : List ModuleSource → Option ModuleLibrary
  | [] => some {}
  | s :: sources => do
    let library ← libraryOf sources
    let m ← (s.compile {}).toOption
    return library.insert m.graph

theorem isCompiled_libraryOf {sources : List ModuleSource} {library : ModuleLibrary}
    (collected : libraryOf sources = some library) : library.IsCompiled := by
  induction sources generalizing library with
  | nil =>
    cases collected
    exact ModuleLibrary.isCompiled_empty
  | cons s sources ih =>
    simp only [libraryOf, bind, Option.bind_eq_some_iff, pure, Option.some.injEq] at collected
    obtain ⟨before, collected, m, compiles, rfl⟩ := collected
    exact (ih collected).insert (Batch.toOption_eq_some_iff.mp compiles)

/-- A declaration with two assertions. -/
def pairSource : ModuleSource :=
  ⟨.single "X", .plain 1 0 0, "deduc T \x7b asrt C \x7b en = \"c\" \x7d asrt D \x7b en = \"d\" \x7d \x7d"⟩

/-- A deduction that proves both, in steps. -/
def pairingSource : ModuleSource :=
  ⟨.single "m", .plain 1 0 0, "deduc P of X.T.C, X.T.D \x7b narration = \"From X.T.C get X.T.D.\" \x7d"⟩

/-- The two assertions. -/
def pairedTargets : List NodeRef :=
  [⟨(pairSource.path.child "T").child "C", pairSource.version⟩,
    ⟨(pairSource.path.child "T").child "D", pairSource.version⟩]

theorem ModuleSource.isTyped_of_compile_pairingSource : ∃ (library : ModuleLibrary) (m : ResolvedModule) (c : Candidate),
    library.IsCompiled ∧
    pairingSource.compile { library := library } = .ok m ∧ m.graph.edges = [.expansion
      ⟨pairingSource.path.child "P", pairingSource.version⟩ pairedTargets .narrated] ∧
    (∀ n : Node, n.path = pairingSource.path.child "P" →
      AreInOneDeclaration c.graph { library := library } (c.imports.mergedWith {}) c.references n pairedTargets) ∧
    pairingSource.build = .ok c ∧ m.IsTyped c { library := library } := by
  have compiles : ((libraryOf [pairSource]).bind fun library => pairingSource.build.toOption.bind fun c =>
      (pairingSource.compile { library := library }).toOption.map fun m => (m.graph.edges,
        declarationsOf c.graph { library := library } (c.imports.mergedWith {}) c.references
          (pairingSource.path.child "P"))) =
      some ([.expansion ⟨pairingSource.path.child "P", pairingSource.version⟩ pairedTargets .narrated],
        pairedTargets.map fun r => (r, ⟨pairSource.path.child "T", pairSource.version⟩)) := by decide +kernel
  obtain ⟨library, collected, compiles⟩ := Option.bind_eq_some_iff.mp compiles
  obtain ⟨c, built, compiles⟩ := Option.bind_eq_some_iff.mp compiles
  obtain ⟨m, compiles, shape⟩ := Option.map_eq_some_iff.mp compiles
  obtain ⟨edges, declarations⟩ := Prod.mk.inj shape
  have compiled := isCompiled_libraryOf collected
  have built := Batch.toOption_eq_some_iff.mp built
  have compiles := Batch.toOption_eq_some_iff.mp compiles
  obtain ⟨c', built', typed⟩ := isTyped_of_compile compiled compiles
  cases built.symm.trans built'
  refine ⟨library, m, c, compiled, compiles, edges, fun n own => ?_, built, typed⟩
  refine areInOneDeclaration_iff_declarationsOf.mpr ⟨⟨pairSource.path.child "T", pairSource.version⟩, fun r member => ?_⟩
  rw [own, declarations]
  exact List.mem_map_of_mem member

/-- A declaration with an assertion deep inside. -/
def shadowedSource : ModuleSource := ⟨.single "a", .plain 1 0 0,
  "deduc b \x7b subdeduc X \x7b asrt C \x7b en = \"c\" \x7d \x7d \x7d"⟩

/-- A module at the place of this declaration, with another node at the path of the assertion. -/
def shadowingSource : ModuleSource := ⟨shadowedSource.path.child "b", .plain 1 0 0,
  "deduc X \x7b supp C \x7b en = \"c\" \x7d asrt D \x7b en = \"d\" \x7d \x7d"⟩

/-- The module at a later version, where the node is gone. -/
def clearedSource : ModuleSource := ⟨shadowingSource.path, .plain 2 0 0, "deduc Y \x7b\x7d"⟩

/-- A deduction that proves the assertion in the one module and an assertion in the other. -/
def spanningSource : ModuleSource := ⟨.single "m", .plain 1 0 0, "deduc P of a.b.X.C, X.D \x7b\x7d"⟩

def spanningImports : ImportTable :=
  ImportTable.insert {} "X" ⟨shadowingSource.path.child "X", some shadowingSource.version⟩

/-- The two assertions, with the declarations in which they are found. -/
def spannedTargets : List (NodeRef × NodeRef) :=
  [(⟨(shadowingSource.path.child "X").child "C", .plain 1 0 0⟩, ⟨shadowedSource.path.child "b", .plain 1 0 0⟩),
    (⟨(shadowingSource.path.child "X").child "D", .plain 1 0 0⟩, ⟨shadowingSource.path.child "X", .plain 1 0 0⟩)]

/-- Two assertions of different declarations are expanded together: the first is looked up again at its
version, and there another module owns its path. -/
theorem spanningSource_spans : ∃ library c m, library.IsCompiled ∧ spanningSource.build = .ok c ∧
    spanningSource.compile { library := library, imports := spanningImports } = .ok m ∧
    ∃ source targets origin, .expansion source targets origin ∈ m.graph.edges ∧ 1 < targets.length ∧
      ∀ n : Node, n.path = source.path → ¬ AreInOneDeclaration c.graph
        { library := library, imports := spanningImports } (c.imports.mergedWith spanningImports) c.references n
        targets := by
  have compiles : ((libraryOf [shadowedSource, shadowingSource, clearedSource]).bind fun library =>
      spanningSource.build.toOption.bind fun c =>
        (spanningSource.compile { library := library, imports := spanningImports }).toOption.map fun m =>
          (m.graph.edges, declarationsOf c.graph { library := library, imports := spanningImports }
            (c.imports.mergedWith spanningImports) c.references (spanningSource.path.child "P"))) =
      some ([.expansion ⟨spanningSource.path.child "P", .plain 1 0 0⟩ (spannedTargets.map Prod.fst) .declared],
        spannedTargets) := by decide +kernel
  obtain ⟨library, collected, compiles⟩ := Option.bind_eq_some_iff.mp compiles
  obtain ⟨c, built, compiles⟩ := Option.bind_eq_some_iff.mp compiles
  obtain ⟨m, compiles, shape⟩ := Option.map_eq_some_iff.mp compiles
  obtain ⟨edges, declarations⟩ := Prod.mk.inj shape
  refine ⟨library, c, m, isCompiled_libraryOf collected, Batch.toOption_eq_some_iff.mp built,
    Batch.toOption_eq_some_iff.mp compiles, _, _, _, edges ▸ List.mem_singleton_self _, by decide,
    fun n own together => ?_⟩
  obtain ⟨d, declared⟩ := areInOneDeclaration_iff_declarationsOf.mp together
  rw [own, declarations] at declared
  have listed : d ∈ spannedTargets.map Prod.snd := List.mem_map_of_mem (declared _ List.mem_cons_self)
  have apart : ∀ d ∈ spannedTargets.map Prod.snd,
      ¬ ∀ r ∈ spannedTargets.map Prod.fst, (r, d) ∈ spannedTargets := by decide
  exact apart d listed declared

end Deductions
