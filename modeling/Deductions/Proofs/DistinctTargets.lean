import Deductions.Proofs.Components
import Deductions.Proofs.CycleListing
import Deductions.Proofs.Findings
import Deductions.Proofs.Typing

namespace Deductions

theorem written_of_mem_buildClause {clause : Clause} {source scope : Path} {span : Span} {seen names : List Path}
    {r : Reference} (member : r ∈ (buildClause clause source scope span seen names).1) :
    r.name ∉ seen ∧ r.scope.join r.name ≠ source := by
  induction names generalizing seen with
  | nil => cases member
  | cons name names ih =>
    have later : r ∈ (buildClause clause source scope span (name :: seen) names).1 →
        r.name ∉ seen ∧ r.scope.join r.name ≠ source := fun member =>
      (ih member).imp_left fun fresh old => fresh (List.mem_cons_of_mem _ old)
    rw [buildClause] at member
    dsimp only at member
    split at member
    · exact later member
    next new =>
      split at member
      · exact later member
      next other =>
        rcases List.mem_cons.mp member with rfl | member
        · exact ⟨fun old => new (List.contains_iff_mem.mpr old), other⟩
        · exact later member

theorem pairwise_buildClause {clause : Clause} {source scope : Path} {span : Span} {seen names : List Path} :
    (buildClause clause source scope span seen names).1.Pairwise fun r r' => r.name ≠ r'.name := by
  induction names generalizing seen with
  | nil => exact .nil
  | cons name names ih =>
    rw [buildClause]
    dsimp only
    split
    · exact ih
    · split
      · exact ih
      · refine .cons (fun r member same => ?_) ih
        exact (written_of_mem_buildClause member).1 (same ▸ List.mem_cons_self)

theorem PlacedBlock.written_of_mem_references {p : PlacedBlock} {module : Path} {r : Reference}
    (member : r ∈ p.references module) : r.source = p.path module ∧ r.scope.join r.name ≠ r.source := by
  obtain ⟨clause, _, member⟩ := List.mem_flatMap.mp member
  have own := (mem_buildClause member).2
  exact ⟨own, own ▸ (written_of_mem_buildClause member).2⟩

/-- No name is written so that it means its own node in the scope where it stands, and none twice in one clause. -/
structure Candidate.IsWrittenApart (c : Candidate) : Prop where
  apart : ∀ r ∈ c.references, r.scope.join r.name ≠ r.source
  once : c.references.Pairwise fun r r' => r.source = r'.source → r.clause = r'.clause → r.name ≠ r'.name

theorem Candidate.isWrittenApart_of_build {module : Path} {version : Version} {source : Source} {c : Candidate}
    (wellFormed : source.IsWellFormed) (built : Candidate.build module version source = .ok c) :
    c.IsWrittenApart := by
  obtain ⟨_, references, _⟩ := grows_of_build wellFormed built
  have distinct := (isOutline_of_build wellFormed built).nodup_path
  have sameModule : c.graph.module = module := (frame_of_build built).1
  rw [sameModule] at distinct
  constructor
  case apart =>
    rw [references]
    intro r member
    obtain ⟨_, _, member⟩ := List.mem_flatMap.mp member
    exact (PlacedBlock.written_of_mem_references member).2
  case once =>
    rw [references, List.pairwise_flatMap]
    refine ⟨fun p _ => ?_, ?_⟩
    · rw [PlacedBlock.references, List.pairwise_flatMap]
      refine ⟨fun clause _ => pairwise_buildClause.imp fun differ _ _ => differ, ?_⟩
      -- two clauses of a block
      have clauses : Clause.all.Nodup := by decide
      refine clauses.imp fun {clause clause'} differ r member r' member' _ same => absurd ?_ differ
      rw [← (mem_buildClause member).1, ← (mem_buildClause member').1, same]
    · -- two blocks
      refine (List.pairwise_map.mp distinct).imp fun {p p'} differ r member r' member' same => absurd ?_ differ
      obtain ⟨own, _⟩ := PlacedBlock.written_of_mem_references member
      obtain ⟨own', _⟩ := PlacedBlock.written_of_mem_references member'
      exact own.symm.trans (same.trans own')

/-- Whether the edge is made for one name in a clause. -/
def Edge.isOfName : Edge → Bool
  | .annotates .. | .alternativeCase .. | .contradiction .. => true
  | _ => false

/-- No edge of a clause leads back to where it starts, and, expansions apart, none is there twice. -/
structure ModuleGraph.HasDistinctTargets (g : ModuleGraph) : Prop where
  apart : ∀ e ∈ g.edges, e.isExpansion ∨ e.isOfName → e.source ∉ e.targets
  once : (g.edges.filter Edge.isOfName).Pairwise fun e e' =>
    ¬ (e.kind = e'.kind ∧ e.source = e'.source ∧ e.targets = e'.targets)

theorem Edge.eq_iff_of_isOfName {e e' : Edge} (single : e.isOfName = true) (single' : e'.isOfName = true) :
    e = e' ↔ e.kind = e'.kind ∧ e.source = e'.source ∧ e.targets = e'.targets := by
  cases e <;> cases single <;> cases e' <;> cases single' <;> simp [Edge.kind, Edge.source, Edge.targets]

theorem pairwise_isOfName_iff {edges : List Edge} :
    ((edges.filter Edge.isOfName).Pairwise fun e e' =>
      ¬ (e.kind = e'.kind ∧ e.source = e'.source ∧ e.targets = e'.targets)) ↔
    (edges.filter Edge.isOfName).Nodup := by
  refine List.Pairwise.iff_of_mem fun member member' => not_congr (Edge.eq_iff_of_isOfName ?_ ?_).symm
  · exact (List.mem_filter.mp member).2
  · exact (List.mem_filter.mp member').2

namespace Resolution

variable {graph : ModuleGraph} {s : Surroundings} {imports : ImportTable} {references : List Reference} {n : Node}

/-- The edge of a name in a clause of `n`, where the name leads to a node. -/
def nameEdge? (graph : ModuleGraph) (s : Surroundings) (imports : ImportTable) (n : Node) (r : Reference) :
    Option Edge :=
  (lookup graph s imports r.scope r.name).node?.bind fun t => clauseEdge? n.ref t.ref r.clause

/-- Two names lead to the same node. -/
def LeadTogether (graph : ModuleGraph) (s : Surroundings) (imports : ImportTable) (r r' : Reference) : Prop :=
  ∃ t t', lookup graph s imports r.scope r.name = .found t ∧ lookup graph s imports r'.scope r'.name = .found t' ∧
    t.ref = t'.ref

theorem nameEdge?_eq_some_iff {r : Reference} {e : Edge} : nameEdge? graph s imports n r = some e ↔
    ∃ t, lookup graph s imports r.scope r.name = .found t ∧ clauseEdge? n.ref t.ref r.clause = some e := by
  rw [nameEdge?]
  cases lookup graph s imports r.scope r.name <;> simp [Lookup.node?]

theorem exists_clauseEdge? {clause : Clause} (single : clause ≠ .of) (a b : NodeRef) :
    ∃ e, clauseEdge? a b clause = some e := by
  cases clause with
  | of => exact absurd rfl single
  | on | versus | contra => exact ⟨_, rfl⟩

theorem isOfName_clauseEdge? {a b : NodeRef} {clause : Clause} {e : Edge} (made : clauseEdge? a b clause = some e) :
    e.isOfName = true := by
  cases clause <;> cases made <;> rfl

theorem filter_isOfName_stepLinks (step : NarrationStep) :
    (stepLinks graph s imports n step).filter Edge.isOfName = [] := by
  refine List.filter_eq_nil_iff.mpr fun e member => ?_
  rcases mem_stepLinks_cases member with ghost | inference
  · cases e <;> cases ghost
    exact nofun
  · have kind := kind_of_mem_inferencesOf inference
    cases e <;> cases kind
    exact nofun

theorem filter_isOfName_referenceLinks (r : Reference) :
    (referenceLinks graph s imports n r).filter Edge.isOfName = (nameEdge? graph s imports n r).toList := by
  rw [referenceLinks, nameEdge?]
  cases lookup graph s imports r.scope r.name with
  | found t =>
    rw [clauseLinks, Lookup.node?, Option.bind_some]
    cases made : clauseEdge? n.ref t.ref r.clause with
    | none => rfl
    | some e => exact List.filter_cons_of_pos (isOfName_clauseEdge? made)
  | ghost | missing => rfl

theorem filter_isOfName_nodeLinks : (nodeLinks graph s imports references n).filter Edge.isOfName =
    (ownReferences references n).filterMap (nameEdge? graph s imports n) := by
  have narrated : ((n.narration.getD []).flatMap (stepLinks graph s imports n)).filter Edge.isOfName = [] := by
    rw [List.filter_flatMap]
    exact List.flatMap_eq_nil_iff.mpr fun step _ => filter_isOfName_stepLinks step
  have expanded : ∀ steps targets, (expansionOfAll n steps targets).filter Edge.isOfName = [] := by
    intro steps targets
    rw [expansionOfAll]
    split <;> rfl
  rw [nodeLinks, List.filter_append, List.filter_append, narrated, expanded, List.nil_append, List.append_nil,
    List.filter_flatMap, List.filterMap_eq_flatMap_toList]
  exact congrArg (List.flatMap · _) (funext filter_isOfName_referenceLinks)

/-- The edges of names are all different just if no two names in one clause lead to the same node. -/
theorem nodup_nameEdges_iff : ((ownReferences references n).filterMap (nameEdge? graph s imports n)).Nodup ↔
    references.Pairwise fun r r' => r.source = n.path → r'.source = n.path → r.clause = r'.clause →
      r.clause ≠ .of → ¬ LeadTogether graph s imports r r' := by
  rw [List.Nodup, List.pairwise_filterMap, ownReferences, List.pairwise_filter]
  simp only [beq_iff_eq]
  refine List.Pairwise.iff fun r r' => forall₂_congr fun _ _ => ?_
  constructor
  · rintro differ sameClause single ⟨t, t', found, found', sameRef⟩
    obtain ⟨e, made⟩ := exists_clauseEdge? single n.ref t.ref
    have made' : clauseEdge? n.ref t'.ref r'.clause = some e := sameClause ▸ sameRef ▸ made
    have named := nameEdge?_eq_some_iff.mpr ⟨t, found, made⟩
    exact differ e named e (nameEdge?_eq_some_iff.mpr ⟨t', found', made'⟩) rfl
  · rintro differ e made e' made' rfl
    obtain ⟨t, found, made⟩ := nameEdge?_eq_some_iff.mp made
    obtain ⟨t', found', made'⟩ := nameEdge?_eq_some_iff.mp made'
    obtain ⟨sameClause, _, sameRef⟩ := clauseEdge?_inj made made'
    refine differ sameClause (fun isOf => ?_) ⟨t, t', found, found', sameRef⟩
    rw [isOf] at made
    cases made

/-- Every alternative case within the module is noted. -/
def Findings.NotesCases (graph : ModuleGraph) (f : Findings) : Prop :=
  ∀ a b, .alternativeCase a b ∈ f.edges → graph.contains b.path = true → f.versus.Succeeds a.path b.path

theorem succeeds_addCase {f : Findings} {a b a' b' : Path} :
    (f.addCase a b).versus.Succeeds a' b' ↔ f.versus.Succeeds a' b' ∨ a' = a ∧ b' = b := Relation.succeeds_link

theorem Findings.NotesCases.addEdges {f : Findings} (notes : f.NotesCases graph) {edges : List Edge}
    (others : ∀ a b, .alternativeCase a b ∈ edges → ¬ graph.contains b.path = true) :
    (f.addEdges edges).NotesCases graph := fun a b member inside =>
  (List.mem_append.mp member).elim (fun old => notes a b old inside) fun new => absurd inside (others a b new)

theorem Findings.Step.notesCases {f f' : Findings} (step : Findings.Step graph s imports references n f f')
    (notes : f.NotesCases graph) : f'.NotesCases graph := by
  cases step with
  | @note scope name =>
    cases lookup graph s imports scope name with
    | found =>
      rw [Findings.note]
      split <;> exact notes
    | ghost =>
      rw [Findings.note]
      split
      · exact notes
      · exact notes.addEdges (by simp)
    | missing =>
      rw [Findings.note]
      split <;> exact notes
  | report | claim | keep => exact notes
  | link others => exact notes.addEdges fun a b member => absurd rfl (others _ member)
  | outerCase outside =>
    refine notes.addEdges fun a b member => ?_
    cases List.mem_singleton.mp member
    exact outside
  | @innerCase t =>
    intro a b member inside
    refine succeeds_addCase.mpr ((List.mem_append.mp member).imp (fun old => notes a b old inside) fun new => ?_)
    cases List.mem_singleton.mp new
    exact ⟨rfl, rfl⟩

/-- What a name finds at the path of a node of the module is this node, if libraries store nodes under their
paths. -/
theorem eq_of_found (keyed : graph.IsKeyed) (keyedLibrary : ∀ id g, s.library.get? id = some g → g.IsKeyed)
    {scope name : Path} {t : Node} (found : lookup graph s imports scope name = .found t)
    (stored : graph.node? t.path = some n) : t = n := by
  obtain ⟨g, path, _, node, origin⟩ := exists_home found
  have inside : graph.contains t.path = true := ModuleGraph.contains_iff.mpr ⟨n, stored⟩
  rcases origin with rfl | ⟨absent, pin, owner⟩
  · rw [keyed path t node, node] at stored
    exact Option.some.inj stored
  · obtain ⟨outer, _, selected⟩ := ModuleLibrary.select_of_owner owner
    obtain ⟨version, held⟩ := ModuleLibrary.get?_of_select selected
    rw [keyedLibrary _ g held path t node, absent] at inside
    cases inside

end Resolution

open Resolution

/-- No name in an `of` or `on` clause leads to the node of the clause, and no two in another clause than `of` lead
to the same node. -/
structure Candidate.LeadsApart (c : Candidate) (s : Surroundings) : Prop where
  apart : ∀ r ∈ c.references, r.clause = .of ∨ r.clause = .on → ∀ t,
    lookup c.graph s (c.imports.mergedWith s.imports) r.scope r.name = .found t → t.ref ≠ ⟨r.source, c.version⟩
  once : c.references.Pairwise fun r r' => r.source = r'.source → r.clause = r'.clause → r.clause ≠ .of →
    ¬ LeadTogether c.graph s (c.imports.mergedWith s.imports) r r'

section

variable {module : Path} {version : Version} {source : Source} {c : Candidate} (wellFormed : source.IsWellFormed)
  (built : Candidate.build module version source = .ok c) {s : Surroundings} {m : ResolvedModule}
  (resolved : c.resolve s = .ok m)
include built resolved

/-- An alternative case of itself would go round. -/
theorem Candidate.alternativeCase_ne {a b : NodeRef} (member : .alternativeCase a b ∈ m.graph.edges) : a ≠ b := by
  rintro rfl
  have edges := (resolve_eq_ok_of_build built s resolved).1
  have inside : c.graph.contains a.path = true := by
    obtain ⟨n, inWalk, member⟩ := (settlesTo built resolved).mem_edges.mp member
    have made : clauseEdge? a a .versus = some (.alternativeCase a a) := rfl
    obtain ⟨rfl, _⟩ := exists_of_clauseEdge_mem made member
    exact ModuleGraph.contains_iff.mpr ⟨n, (mem_walk_iff built).mp inWalk⟩
  have notes : (findings c s).NotesCases c.graph :=
    findings_induction (fun _ _ member => nomatch member) fun _ _ _ _ step notes => step.notesCases notes
  rw [edges] at member
  have round := Relation.TransGen.single (notes a a member inside)
  exact Relation.cycles_eq_nil_iff.mp (versus_of_resolve built resolved).2 a.path round

theorem Candidate.filter_isOfName_edges : m.graph.edges.filter Edge.isOfName =
    (c.graph.walk.getD []).flatMap fun n =>
      (ownReferences c.references n).filterMap (nameEdge? c.graph s (c.imports.mergedWith s.imports) n) := by
  have noGhost : ∀ e : Edge, e.isOfName = true → e.isGhost = false := by
    intro e single
    cases e <;> first | rfl | cases single
  rw [(settlesTo built resolved).graph, filter_addLinks noGhost, List.filter_nil, List.nil_append,
    List.filter_flatMap]
  exact congrArg (List.flatMap · _) (funext fun _ => filter_isOfName_nodeLinks)

include wellFormed

theorem Candidate.nodup_filter_edges_iff :
    (m.graph.edges.filter Edge.isOfName).Nodup ↔ c.references.Pairwise fun r r' => r.source = r'.source →
      r.clause = r'.clause → r.clause ≠ .of → ¬ LeadTogether c.graph s (c.imports.mergedWith s.imports) r r' := by
  have apart : (c.graph.walk.getD []).Pairwise (Function.onFun List.Disjoint fun n =>
      (ownReferences c.references n).filterMap (nameEdge? c.graph s (c.imports.mergedWith s.imports) n)) := by
    refine (List.pairwise_map.mp (nodup_walk built)).imp fun {n n'} different e member member' => different ?_
    obtain ⟨_, _, made⟩ := List.mem_filterMap.mp member
    obtain ⟨_, _, made'⟩ := List.mem_filterMap.mp member'
    obtain ⟨_, _, made⟩ := nameEdge?_eq_some_iff.mp made
    obtain ⟨_, _, made'⟩ := nameEdge?_eq_some_iff.mp made'
    exact congrArg NodeRef.path (clauseEdge?_inj made made').2.1
  rw [filter_isOfName_edges built resolved, List.nodup_flatMap, and_iff_left apart]
  simp only [nodup_nameEdges_iff]
  constructor
  · intro each
    refine List.pairwise_iff_forall_sublist.mpr fun {r r'} both same => ?_
    obtain ⟨n, inside, own⟩ := exists_mem_ownReferences wellFormed built (both.subset List.mem_cons_self)
    have atNode := (mem_ownReferences.mp own).2
    exact List.pairwise_iff_forall_sublist.mp (each n inside) both atNode (same.symm.trans atNode)
  · exact fun all n _ => all.imp fun differ own own' => differ (own.trans own'.symm)

variable (keyedLibrary : ∀ id g, s.library.get? id = some g → g.IsKeyed)
include keyedLibrary

/-- A falsum is no supposition. -/
theorem Candidate.contradiction_ne {a b : NodeRef} (member : .contradiction a b ∈ m.graph.edges) : a ≠ b := by
  rintro rfl
  have settles := settlesTo built resolved
  obtain ⟨n, inside, member⟩ := settles.mem_edges.mp member
  have made : clauseEdge? a a .contra = some (.contradiction a a) := rfl
  obtain ⟨rfl, r, own, clause, t, found, same⟩ := exists_of_clauseEdge_mem made member
  have path : n.path = t.path := congrArg NodeRef.path same
  obtain rfl : t = n :=
    eq_of_found (isKeyed_of_build built) keyedLibrary found (path ▸ (mem_walk_iff built).mp inside)
  have kind := kind_of_ownReference wellFormed built inside own
  have fit := (settles.settled t inside).clauses r own t found
  rw [clause] at kind fit
  cases kind.symm.trans fit

/-- A name in an `of` or `on` clause that leads to the node of the clause makes an edge that comes back. -/
theorem Candidate.exists_back_edge {r : Reference} (written : r ∈ c.references)
    (named : r.clause = .of ∨ r.clause = .on) {t : Node}
    (found : lookup c.graph s (c.imports.mergedWith s.imports) r.scope r.name = .found t)
    (same : t.path = r.source) :
    ∃ e ∈ m.graph.edges, (e.isExpansion = true ∨ e.isOfName = true) ∧ e.source ∈ e.targets := by
  have settles := settlesTo built resolved
  have keyed : c.graph.IsKeyed := isKeyed_of_build built
  obtain ⟨n, inside, own⟩ := exists_mem_ownReferences wellFormed built written
  have stored : c.graph.node? r.source = some n := (mem_ownReferences.mp own).2 ▸ (mem_walk_iff built).mp inside
  rcases named with isOf | isOn
  · -- of the targets with this path the first one is expanded, and it is the node as well
    obtain ⟨t', expanded, path⟩ := exists_mem_firstBy Node.path (mem_namedTargets.mpr ⟨r, own, isOf, found⟩)
    obtain ⟨_, _, _, found'⟩ := mem_expandedBy expanded
    obtain rfl : t' = n := eq_of_found keyed keyedLibrary found' (path.trans same ▸ stored)
    have member := expansion_mem_nodeLinks_iff.mpr ⟨List.ne_nil_of_mem expanded, rfl, rfl, rfl⟩
    exact ⟨_, settles.mem_edges.mpr ⟨t', inside, member⟩, .inl rfl, List.mem_map_of_mem expanded⟩
  · obtain rfl : t = n := eq_of_found keyed keyedLibrary found (same ▸ stored)
    have made : clauseEdge? t.ref t.ref r.clause = some (.annotates t.ref t.ref) := by rw [isOn, clauseEdge?]
    have member := mem_nodeLinks.mpr (.inr (.inl ⟨r, own, mem_clauseLinks.mpr (.inl ⟨t, found, made⟩)⟩))
    exact ⟨_, settles.mem_edges.mpr ⟨t, inside, member⟩, .inr rfl, List.mem_singleton_self _⟩

/-- The edges of a clause come back to a node just if a name in an `of` or `on` clause leads there: the kinds of
nodes exclude it for `contra`, and alternative cases that go round are refused. -/
theorem Candidate.apart_edges_iff :
    (∀ e ∈ m.graph.edges, e.isExpansion = true ∨ e.isOfName = true → e.source ∉ e.targets) ↔
      ∀ r ∈ c.references, r.clause = .of ∨ r.clause = .on → ∀ t,
        lookup c.graph s (c.imports.mergedWith s.imports) r.scope r.name = .found t →
        t.ref ≠ ⟨r.source, c.version⟩ := by
  have ownRef : ∀ n ∈ c.graph.walk.getD [], ∀ r ∈ ownReferences c.references n, n.ref = ⟨r.source, c.version⟩ := by
    intro n inside r own
    rw [Node.ref, (mem_ownReferences.mp own).2,
      ((isForest_of_build built).sound _ n ((mem_walk_iff built).mp inside)).1]
    rfl
  constructor
  · intro apart r written named t found same
    obtain ⟨e, member, kinds, back⟩ :=
      exists_back_edge wellFormed built resolved keyedLibrary written named found (congrArg NodeRef.path same)
    exact apart e member kinds back
  · intro leads e member kinds back
    obtain ⟨n, inside, linked⟩ := (settlesTo built resolved).mem_edges.mp member
    cases e with
    | expansion =>
      obtain ⟨_, rfl, rfl, _⟩ := expansion_mem_nodeLinks_iff.mp linked
      obtain ⟨t, expanded, same⟩ := List.mem_map.mp back
      obtain ⟨r, own, isOf, found⟩ := mem_expandedBy expanded
      exact leads r (mem_ownReferences.mp own).1 (.inl isOf) t found (same.trans (ownRef n inside r own))
    | annotates a b =>
      have made : clauseEdge? a b .on = some (.annotates a b) := rfl
      obtain ⟨rfl, r, own, isOn, t, found, rfl⟩ := exists_of_clauseEdge_mem made linked
      have same : n.ref = t.ref := List.mem_singleton.mp back
      exact leads r (mem_ownReferences.mp own).1 (.inr isOn) t found (same.symm.trans (ownRef n inside r own))
    | alternativeCase => exact alternativeCase_ne built resolved member (List.mem_singleton.mp back)
    | contradiction =>
      exact contradiction_ne wellFormed built resolved keyedLibrary member (List.mem_singleton.mp back)
    | inference | ghost => simp [Edge.isExpansion, Edge.isOfName] at kinds

end

/-- Where a module compiles, no name is written twice in a clause or so that it means its own node there. Its edges
then have distinct targets just if other ways of writing make no difference: for `of` and `on` clauses that lead
to their own node, and for two names in an `on`, `versus` or `contra` clause that lead to one. -/
theorem ModuleSource.hasDistinctTargets_iff_of_compile {s : ModuleSource} {surroundings : Surroundings}
    {m : ResolvedModule} (keyed : ∀ id g, surroundings.library.get? id = some g → g.IsKeyed)
    (compiles : s.compile surroundings = .ok m) : ∃ c, s.build = .ok c ∧ c.IsWrittenApart ∧
      (m.graph.HasDistinctTargets ↔ c.LeadsApart surroundings) := by
  obtain ⟨c, built, resolved⟩ := ModuleSource.compile_eq_ok.mp compiles
  obtain ⟨source, wellFormed, build⟩ := s.build_eq_ok built
  refine ⟨c, built, c.isWrittenApart_of_build wellFormed build, ?_⟩
  have apart := Candidate.apart_edges_iff wellFormed build resolved keyed
  have once := pairwise_isOfName_iff.trans (Candidate.nodup_filter_edges_iff wellFormed build resolved)
  exact ⟨fun distinct => ⟨apart.mp distinct.apart, once.mp distinct.once⟩,
    fun leads => ⟨apart.mpr leads.apart, once.mpr leads.once⟩⟩

/-- Clauses of all four kinds, with names that are written in several ways. -/
def clausesSource : ModuleSource := ⟨.single "m", .plain 1 0 0,
  "deduc T \x7b supp A \x7b en = \"a\" \x7d supp B versus T.A \x7b en = \"b\" \x7d " ++
  "flse F contra A, m.T.B \x7b \x7d \x7d deduc P of m.T \x7b\x7d anno N on P, m.T \x7b body = @@@x@@@ \x7d"⟩

/-- Their edges. -/
def clausesEdges : List Edge :=
  let node (name : String) : NodeRef := ⟨clausesSource.path.child name, clausesSource.version⟩
  let inner (name : String) : NodeRef := ⟨(clausesSource.path.child "T").child name, clausesSource.version⟩
  [.alternativeCase (inner "B") (inner "A"), .contradiction (inner "F") (inner "A"),
    .contradiction (inner "F") (inner "B"), .expansion (node "P") [node "T"] .declared,
    .annotates (node "N") (node "P"), .annotates (node "N") (node "T")]

theorem hasDistinctTargets_iff_of_compile_clausesSource : ∃ m, clausesSource.compile {} = .ok m ∧
    m.graph.edges = clausesEdges ∧ m.graph.HasDistinctTargets ∧
    ∃ c, clausesSource.build = .ok c ∧ c.IsWrittenApart ∧ c.LeadsApart {} := by
  have compiles : ((clausesSource.compile {}).toOption.map fun m => m.graph.edges) = some clausesEdges := by
    decide +kernel
  obtain ⟨m, compiles, edges⟩ := Option.map_eq_some_iff.mp compiles
  have compiles := Batch.toOption_eq_some_iff.mp compiles
  have distinct : m.graph.HasDistinctTargets := ⟨by rw [edges]; decide, by rw [edges]; decide⟩
  have keyed : ∀ id g, ModuleLibrary.get? {} id = some g → g.IsKeyed := fun _ _ held => nomatch held
  obtain ⟨c, built, written, iff⟩ := ModuleSource.hasDistinctTargets_iff_of_compile keyed compiles
  exact ⟨m, compiles, edges, distinct, c, built, written, iff.mp distinct⟩

/-- A deduction that names itself, and an annotation that names it twice, by its full path. -/
def repeatingSource : ModuleSource := ⟨.single "m", .plain 1 0 0,
  "deduc P of m.P \x7b\x7d anno N on P, m.P \x7b body = @@@x@@@ \x7d"⟩

theorem repeatingSource_repeats : ∃ m, repeatingSource.compile {} = .ok m ∧
    (∃ e ∈ m.graph.edges, e.isExpansion = true ∧ e.source ∈ e.targets) ∧
    ¬ (m.graph.edges.filter Edge.isOfName).Pairwise fun e e' =>
      ¬ (e.kind = e'.kind ∧ e.source = e'.source ∧ e.targets = e'.targets) := by
  have shape : (repeatingSource.compile {}).toOption.map (fun m => m.graph.edges) =
      some (let p : NodeRef := ⟨repeatingSource.path.child "P", .plain 1 0 0⟩
        let n : NodeRef := ⟨repeatingSource.path.child "N", .plain 1 0 0⟩
        [.expansion p [p] .declared, .annotates n p, .annotates n p]) := by decide +kernel
  obtain ⟨m, compiles, edges⟩ := Option.map_eq_some_iff.mp shape
  refine ⟨m, Batch.toOption_eq_some_iff.mp compiles, ?_⟩
  rw [edges]
  exact ⟨⟨_, List.mem_cons_self, rfl, List.mem_cons_self⟩, by decide⟩

end Deductions
