import Deductions.Proofs.Components
import Deductions.Proofs.CycleListing
import Deductions.Proofs.Findings
import Deductions.Proofs.Typing

namespace Deductions

namespace Resolution

variable {graph : ModuleGraph} {s : Surroundings} {imports : ImportTable} {references : List Reference}
  {f f' : Findings} {n : Node}

theorem Findings.versus_note (f : Findings) (graph : ModuleGraph) (n : Node) (name : Path) (role : GhostRole)
    (result : Lookup) : (f.note graph n name role result).versus = f.versus := by
  cases result <;>
  · rw [Findings.note]
    split <;> rfl

/-- What was noted stays. -/
theorem Findings.Step.succeeds (step : Findings.Step graph s imports references n f f') {a b : Path}
    (noted : f.versus.Succeeds a b) : f'.versus.Succeeds a b := by
  cases step with
  | note => rwa [Findings.versus_note]
  | innerCase => exact Relation.succeeds_link.mpr (.inl noted)
  | report | link | outerCase | claim | keep => exact noted

theorem Findings.Steps.succeeds (steps : Findings.Steps graph s imports references n f f') {a b : Path}
    (noted : f.versus.Succeeds a b) : f'.versus.Succeeds a b := by
  induction steps with
  | refl => exact noted
  | tail _ step ih => exact step.succeeds ih

/-- Only cases are noted. -/
theorem Findings.Step.isCase (step : Findings.Step graph s imports references n f f')
    (cases : ∀ a b, f.versus.Succeeds a b → IsCase graph s imports references a b) :
    ∀ a b, f'.versus.Succeeds a b → IsCase graph s imports references a b := by
  cases step with
  | note => rwa [Findings.versus_note]
  | innerCase isCase =>
    intro a b noted
    rcases Relation.succeeds_link.mp noted with old | ⟨rfl, rfl⟩
    · exact cases a b old
    · exact isCase
  | report | link | outerCase | claim | keep => exact cases

/-- Cases that go round are not told at any node. -/
theorem Findings.Step.straight (step : Findings.Step graph s imports references n f f') {cycle : List Path}
    (straight : .cyclicCaseChain cycle ∉ f.errors) : .cyclicCaseChain cycle ∉ f'.errors := by
  cases step with
  | @note scope name =>
    cases lookup graph s imports scope name <;>
    · rw [Findings.note]
      split
      · exact straight
      · first | exact straight | exact List.not_mem_append straight (by simp)
  | report others =>
    exact List.not_mem_append straight fun member => (others _ member).2 cycle rfl
  | link | innerCase | outerCase | claim | keep => exact straight

theorem succeeds_linkReference {t : Node} {declared : Nat} (isSupposition : t.kind = .supposition)
    (inside : graph.contains t.path = true) :
    (linkReference graph n declared .versus t f).versus.Succeeds n.path t.path := by
  rw [linkReference, linkSupposition, if_pos isSupposition]
  dsimp only
  rw [if_pos (by rw [inside]; rfl)]
  exact Relation.succeeds_link.mpr (.inr ⟨rfl, rfl⟩)

/-- A case among the references of a node is noted when they are resolved. -/
theorem succeeds_resolveReferences {declared : Nat} {own : List Reference}
    (written : ∀ r ∈ own, r ∈ references ∧ r.source = n.path) {r : Reference} (member : r ∈ own)
    (isVersus : r.clause = .versus) {t : Node} (found : lookup graph s imports r.scope r.name = .found t)
    (isSupposition : t.kind = .supposition) (inside : graph.contains t.path = true) :
    (resolveReferences graph s imports n declared f own).2.versus.Succeeds n.path t.path := by
  induction own generalizing f with
  | nil => cases member
  | cons r' own ih =>
    obtain ⟨_, later⟩ := List.forall_mem_cons.mp written
    rw [resolveReferences]
    dsimp only
    rcases List.mem_cons.mp member with rfl | member
    · rw [found, isVersus]
      exact (steps_resolveReferences later).succeeds (succeeds_linkReference isSupposition inside)
    · split
      · exact ih later member
      · exact ih later member

theorem succeeds_resolveNode {b : Path} (isCase : IsCase graph s imports references n.path b) :
    (resolveNode graph s imports references f n).versus.Succeeds n.path b := by
  obtain ⟨r, member, atNode, isVersus, t, found, isSupposition, rfl, inside⟩ := isCase
  have own : r ∈ ownReferences references n := mem_ownReferences.mpr ⟨member, atNode⟩
  have noted : (referred graph s imports references f n).2.versus.Succeeds n.path t.path :=
    succeeds_resolveReferences (fun _ => mem_ownReferences.mp) own isVersus found isSupposition inside
  exact steps_of_referred.succeeds noted

theorem succeeds_foldl {nodes : List Node} (member : n ∈ nodes) {b : Path}
    (isCase : IsCase graph s imports references n.path b) :
    (nodes.foldl (resolveNode graph s imports references) f).versus.Succeeds n.path b := by
  have later : ∀ (nodes : List Node) (f : Findings), f.versus.Succeeds n.path b →
      (nodes.foldl (resolveNode graph s imports references) f).versus.Succeeds n.path b := fun nodes f noted =>
    List.foldlRecOn (motive := fun f : Findings => f.versus.Succeeds n.path b) nodes _ noted
      fun _ noted _ _ => steps_resolveNode.succeeds noted
  obtain ⟨before, after, rfl⟩ := List.append_of_mem member
  rw [List.foldl_append]
  exact later after _ (succeeds_resolveNode isCase)

end Resolution

open Resolution

/-- A `versus` clause of `source` has a name that leads to `target`, a supposition of the module. -/
def Candidate.HasCase (c : Candidate) (s : Surroundings) (source target : Path) : Prop :=
  ∃ r ∈ c.references, r.source = source ∧ r.clause = .versus ∧ ∃ t,
    lookup c.graph s (c.imports.mergedWith s.imports) r.scope r.name = .found t ∧ t.kind = .supposition ∧
      t.path = target ∧ c.graph.contains target = true

/-- An edge tells that `source` has the alternative case `target`, both nodes of the module. -/
def ModuleGraph.HasCase (g : ModuleGraph) (source target : Path) : Prop :=
  ∃ a b, .alternativeCase a b ∈ g.edges ∧ a.path = source ∧ b.path = target ∧
    g.contains source = true ∧ g.contains target = true

section

variable {module : Path} {version : Version} {source : Source} {c : Candidate} (wellFormed : source.IsWellFormed)
  (built : Candidate.build module version source = .ok c) {s : Surroundings}
include wellFormed built

/-- Exactly the cases are noted, whatever else is found. -/
theorem Candidate.succeeds_findings (s : Surroundings) : (findings c s).versus.Succeeds = c.HasCase s := by
  funext a b
  refine propext ⟨?_, fun isCase => ?_⟩
  · have cases : ∀ a b, (findings c s).versus.Succeeds a b → c.HasCase s a b :=
      findings_induction (fun _ _ noted => nomatch noted) fun _ _ _ _ step cases => step.isCase cases
    exact cases a b
  · obtain ⟨r, member, rfl, _⟩ := id isCase
    obtain ⟨n, inside, own⟩ := exists_mem_ownReferences wellFormed built member
    rw [(mem_ownReferences.mp own).2] at isCase ⊢
    exact succeeds_foldl inside isCase

/-- The edges between nodes of a resolved module tell its cases. -/
theorem Candidate.hasCase_of_resolve {m : ResolvedModule} (resolved : c.resolve s = .ok m) :
    m.graph.HasCase = c.HasCase s := by
  have settles := settlesTo built resolved
  have contains : ∀ path, m.graph.contains path = c.graph.contains path := fun path => by
    rw [settles.graph]
    rfl
  have made : ∀ a b : NodeRef, clauseEdge? a b .versus = some (.alternativeCase a b) := fun _ _ => rfl
  funext a b
  refine propext ⟨?_, ?_⟩
  · rintro ⟨a, b, member, rfl, rfl, _, inside⟩
    obtain ⟨n, inWalk, linked⟩ := settles.mem_edges.mp member
    obtain ⟨rfl, r, own, isVersus, t, found, rfl⟩ := exists_of_clauseEdge_mem (made a b) linked
    have fit := (settles.settled n inWalk).clauses r own t found
    rw [isVersus] at fit
    obtain ⟨written, atNode⟩ := mem_ownReferences.mp own
    exact ⟨r, written, atNode, isVersus, t, found, fit, rfl, contains t.path ▸ inside⟩
  · rintro ⟨r, written, rfl, isVersus, t, found, _, rfl, inside⟩
    obtain ⟨n, inWalk, own⟩ := exists_mem_ownReferences wellFormed built written
    have linked : .alternativeCase n.ref t.ref ∈
        referenceLinks c.graph s (c.imports.mergedWith s.imports) n r := by
      rw [referenceLinks, found, isVersus]
      exact List.mem_singleton_self _
    have stored : c.graph.contains n.path = true := ModuleGraph.contains_iff.mpr ⟨n, (mem_walk_iff built).mp inWalk⟩
    have atNode := (mem_ownReferences.mp own).2
    exact ⟨n.ref, t.ref, settles.mem_edges.mpr ⟨n, inWalk, mem_nodeLinks.mpr (.inr (.inl ⟨r, own, linked⟩))⟩,
      atNode.symm, rfl, (contains r.source).trans (atNode ▸ stored), (contains t.path).trans inside⟩

omit wellFormed in
/-- What is told to go round are the cycles among the cases noted. -/
theorem Candidate.mem_cycles_of_resolve {errors : List ResolveError} (refused : c.resolve s = .error errors)
    {cycle : List Path} : .cyclicCaseChain cycle ∈ errors ↔ cycle ∈ (findings c s).versus.cycles := by
  have straight : .cyclicCaseChain cycle ∉ (findings c s).errors :=
    findings_induction List.not_mem_nil fun _ _ _ _ step straight => step.straight straight
  rw [errors_of_resolve built refused]
  simp [straight]

end

/-- The groups of a resolved module are the components of the alternative cases that its edges tell, and these
cases do not go round.  A module whose clauses go round is refused, and all that is told to go round are such
clauses, each leading to the next and the last to the first. -/
theorem ModuleSource.caseGroups_isComponentListing {s : ModuleSource} {c : Candidate} (built : s.build = .ok c)
    (surroundings : Surroundings) :
    (∀ m, c.resolve surroundings = .ok m →
      Relation.IsComponentListing m.graph.HasCase m.caseGroups ∧ ∀ a, ¬ Relation.TransGen m.graph.HasCase a a) ∧
    ((∃ a, Relation.TransGen (c.HasCase surroundings) a a) →
      ∃ errors, c.resolve surroundings = .error errors ∧ ∃ cycle, .cyclicCaseChain cycle ∈ errors) ∧
    ∀ errors, c.resolve surroundings = .error errors → ∀ cycle, .cyclicCaseChain cycle ∈ errors →
      ∃ start rest, cycle = start :: (rest ++ [start]) ∧ (start :: rest).Nodup ∧
        cycle.IsChain (c.HasCase surroundings) := by
  obtain ⟨source, wellFormed, build⟩ := s.build_eq_ok built
  have noted := Candidate.succeeds_findings wellFormed build surroundings
  refine ⟨fun m resolved => ?groups, fun ⟨a, round⟩ => ?refused, fun errors refused cycle member => ?chain⟩
  case groups =>
    obtain ⟨groups, acyclic⟩ := Candidate.versus_of_resolve build resolved
    rw [Candidate.hasCase_of_resolve wellFormed build resolved, ← noted, groups]
    exact ⟨Relation.components_isComponentListing _, Relation.cycles_eq_nil_iff.mp acyclic⟩
  case refused =>
    rw [← noted] at round
    obtain ⟨_, _, _, cycle, member, _⟩ := Relation.exists_mem_cycles round
    cases resolved : c.resolve surroundings with
    | error errors => exact ⟨errors, rfl, cycle, (Candidate.mem_cycles_of_resolve build resolved).mpr member⟩
    | ok m =>
      rw [(Candidate.versus_of_resolve build resolved).2] at member
      cases member
  case chain =>
    rw [← noted]
    exact Relation.of_mem_cycles ((Candidate.mem_cycles_of_resolve build refused).mp member)

/-- Two groups, which are written in an order of their own. -/
def groupedSource : ModuleSource := ⟨.single "m", .plain 1 0 0,
  "deduc T \x7b supp E versus T.D \x7b en = \"e\" \x7d supp B versus T.C \x7b en = \"b\" \x7d " ++
  "supp C versus T.A \x7b en = \"c\" \x7d supp A \x7b en = \"a\" \x7d supp D \x7b en = \"d\" \x7d \x7d"⟩

/-- Two cases, each of which is the other one of the other. -/
def roundSource : ModuleSource := ⟨.single "m", .plain 1 0 0,
  "deduc T \x7b supp A versus T.B \x7b en = \"a\" \x7d supp B versus T.A \x7b en = \"b\" \x7d \x7d"⟩

/-- What goes round there. -/
def roundCases : List Path :=
  ["A", "B", "A"].map ((roundSource.path.child "T").child ·)

theorem caseGroups_isComponentListing_sources :
    (∃ c m, groupedSource.build = .ok c ∧ c.resolve {} = .ok m ∧
      m.caseGroups = [["A", "B", "C"], ["D", "E"]].map (·.map ((groupedSource.path.child "T").child ·)) ∧
      Relation.IsComponentListing m.graph.HasCase m.caseGroups ∧ ∀ a, ¬ Relation.TransGen m.graph.HasCase a a) ∧
    ∃ c, roundSource.build = .ok c ∧ c.resolve {} = .error [.cyclicCaseChain roundCases] ∧
      roundCases.IsChain (c.HasCase {}) ∧ (∃ a, Relation.TransGen (c.HasCase {}) a a) ∧
      ∃ errors, c.resolve {} = .error errors ∧ ∃ cycle, .cyclicCaseChain cycle ∈ errors := by
  constructor
  · have compiles : (groupedSource.compile {}).toOption.map (·.caseGroups) =
        some ([["A", "B", "C"], ["D", "E"]].map (·.map ((groupedSource.path.child "T").child ·))) := by
      decide +kernel
    obtain ⟨m, compiles, groups⟩ := Option.map_eq_some_iff.mp compiles
    obtain ⟨c, built, resolved⟩ := ModuleSource.compile_eq_ok.mp (Batch.toOption_eq_some_iff.mp compiles)
    obtain ⟨listing, _⟩ := ModuleSource.caseGroups_isComponentListing built {}
    exact ⟨c, m, built, resolved, groups, listing m resolved⟩
  · have refused : (roundSource.build.toOption.map fun c => c.resolve {}) =
        some (.error [.cyclicCaseChain roundCases]) := by decide +kernel
    obtain ⟨c, built, refused⟩ := Option.map_eq_some_iff.mp refused
    have built := Batch.toOption_eq_some_iff.mp built
    obtain ⟨_, refuses, chain⟩ := ModuleSource.caseGroups_isComponentListing built {}
    obtain ⟨_, _, _, _, isChain⟩ := chain _ refused roundCases (List.mem_singleton_self _)
    obtain ⟨there, back, _⟩ := List.isChain_cons_cons.mp isChain |>.imp_right List.isChain_cons_cons.mp
    have goesRound : ∃ a, Relation.TransGen (c.HasCase {}) a a := ⟨_, .tail (.single there) back⟩
    exact ⟨c, built, refused, isChain, goesRound, refuses goesRound⟩

end Deductions
