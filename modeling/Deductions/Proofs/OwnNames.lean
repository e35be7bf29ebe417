import Deductions.Proofs.Enclosed
import Deductions.Proofs.Findings

namespace Deductions

namespace Resolution

/-- The name leads to a node of the module on the way outwards from the scope. -/
def IsOwn (graph : ModuleGraph) (scope name : Path) : Prop :=
  ∃ outer ∈ scopes graph.module scope, graph.contains (outer.join name) = true

instance (graph : ModuleGraph) (scope name : Path) : Decidable (IsOwn graph scope name) :=
  inferInstanceAs (Decidable (∃ outer ∈ _, _))

variable {graph : ModuleGraph} {scope name : Path}

/-- An own name means the same node in all surroundings. -/
theorem IsOwn.exists_found (own : IsOwn graph scope name) (keyed : graph.IsKeyed) :
    ∃ t, graph.contains t.path = true ∧ ∀ s imports, lookup graph s imports scope name = .found t := by
  obtain ⟨outer, inScopes, inside⟩ := own
  obtain ⟨n, stored⟩ := ModuleGraph.contains_iff.mp inside
  obtain ⟨t, found⟩ : ∃ t, (scopes graph.module scope).findSome? (fun outer => graph.node? (outer.join name)) =
      some t :=
    Option.isSome_iff_exists.mp (List.findSome?_isSome_iff.mpr ⟨outer, inScopes, stored ▸ rfl⟩)
  refine ⟨t, ?_, fun s imports => ?_⟩
  · obtain ⟨outer, _, atPlace⟩ := List.exists_of_findSome?_eq_some found
    exact ModuleGraph.contains_iff.mpr ⟨t, keyed _ t atPlace ▸ atPlace⟩
  · -- these places come before all that the imports and the library have a say in
    have first : ((scopes graph.module scope).map fun outer => (⟨outer.join name, .module⟩ : Place)).findSome?
        (Place.node? graph s.library) = some t := by
      rw [List.findSome?_map]
      exact found
    rw [lookup, places, List.append_assoc, List.append_assoc, List.findSome?_append, first, Option.some_or]

end Resolution

/-- Whether the error is about two deductions that prove one node. -/
def ResolveError.isDuplicateExpansion : ResolveError → Bool
  | .duplicateExpansion .. => true
  | _ => false

namespace Resolution

/-- What is found without what comes of claiming targets. -/
def Findings.unclaimed (f : Findings) : Findings :=
  { f with claimed := SortedMap.empty, errors := f.errors.filter fun e => !e.isDuplicateExpansion }

variable {s s' : Surroundings} {imports imports' : ImportTable} {references : List Reference}
  {f f' : Findings} {n : Node}

theorem unclaimed_addErrors (errors : List ResolveError) : (f.addErrors errors).unclaimed =
    f.unclaimed.addErrors (errors.filter fun e => !e.isDuplicateExpansion) := by
  simp [Findings.unclaimed, Findings.addErrors]

theorem unclaimed_addEdges (edges : List Edge) : (f.addEdges edges).unclaimed = f.unclaimed.addEdges edges := rfl

theorem unclaimed_note (name : Path) (role : GhostRole) (result : Lookup) :
    (f.note graph n name role result).unclaimed = f.unclaimed.note graph n name role result := by
  cases result with
  | found t =>
    rw [Findings.note, Findings.note]
    split <;> rfl
  | ghost target =>
    have same : f.unclaimed.edges = f.edges := rfl
    rw [Findings.note, Findings.note, same]
    split <;> rfl
  | missing =>
    -- an error of this kind is not left out
    have same : f.unclaimed.errors.contains (.unresolved n.path name) =
        f.errors.contains (.unresolved n.path name) := by
      simp [Findings.unclaimed, ResolveError.isDuplicateExpansion]
    rw [Findings.note, Findings.note, same]
    split
    · rfl
    · rw [unclaimed_addErrors]
      rfl

theorem unclaimed_claim (t : Node) : (claim graph s n f t).unclaimed = f.unclaimed := by
  rw [claim]
  split
  · simp [Findings.unclaimed, Findings.addErrors, ResolveError.isDuplicateExpansion]
  · rfl

theorem unclaimed_foldl_claim {targets : List Node} :
    (targets.foldl (claim graph s n) f).unclaimed = f.unclaimed := by
  induction targets generalizing f with
  | nil => rfl
  | cons t targets ih => rw [List.foldl_cons, ih, unclaimed_claim]

theorem unclaimed_noteLookups {found : List (Path × Lookup)} :
    (noteLookups graph n f found).unclaimed = noteLookups graph n f.unclaimed found := by
  induction found generalizing f with
  | nil => rfl
  | cons l found ih =>
    refine ih.trans ?_
    rw [unclaimed_note]
    rfl

section

variable (same : f.unclaimed = f'.unclaimed)
include same

theorem unclaimed_resolveStep_congr {step : NarrationStep} :
    (resolveStep graph s imports n f step).2.unclaimed = (resolveStep graph s imports n f' step).2.unclaimed := by
  rw [resolveStep, resolveStep]
  dsimp only
  rw [unclaimed_addEdges, unclaimed_addErrors, unclaimed_noteLookups, same, ← unclaimed_noteLookups,
    ← unclaimed_addErrors, ← unclaimed_addEdges]

theorem unclaimed_resolveSteps_congr {steps : List NarrationStep} :
    (resolveSteps graph s imports n f steps).2.unclaimed =
      (resolveSteps graph s imports n f' steps).2.unclaimed := by
  induction steps generalizing f f' with
  | nil => exact same
  | cons step steps ih => exact ih (unclaimed_resolveStep_congr same)

theorem unclaimed_resolveNarration_congr :
    (resolveNarration graph s imports f n).2.unclaimed = (resolveNarration graph s imports f' n).2.unclaimed := by
  rw [resolveNarration, resolveNarration]
  cases n.narration with
  | none => exact same
  | some steps => exact unclaimed_resolveSteps_congr same

theorem unclaimed_linkSupposition_congr {t : Node} {clause : Clause} {edge : Edge} :
    (linkSupposition graph n t clause edge f).unclaimed = (linkSupposition graph n t clause edge f').unclaimed := by
  rw [linkSupposition, linkSupposition]
  dsimp only
  split
  · have linked : (f.addEdges [edge]).unclaimed = (f'.addEdges [edge]).unclaimed :=
      congrArg (Findings.addEdges · [edge]) same
    split
    · exact congrArg (Findings.addCase · n.path t.path) linked
    · exact linked
  · rw [unclaimed_addErrors, unclaimed_addErrors, same]

theorem unclaimed_linkReference_congr {t : Node} {declared : Nat} {clause : Clause} :
    (linkReference graph n declared clause t f).unclaimed =
      (linkReference graph n declared clause t f').unclaimed := by
  cases clause with
  | of =>
    rw [linkReference, linkReference, unclaimed_addErrors, unclaimed_addErrors, same]
  | on => exact congrArg (Findings.addEdges · [.annotates n.ref t.ref]) same
  | versus | contra => exact unclaimed_linkSupposition_congr same

theorem unclaimed_resolveReferences_congr {declared : Nat} {own : List Reference} :
    (resolveReferences graph s imports n declared f own).2.unclaimed =
      (resolveReferences graph s imports n declared f' own).2.unclaimed := by
  induction own generalizing f f' with
  | nil => exact same
  | cons r own ih =>
    have noted : (f.note graph n r.name r.clause.ghostRole (lookup graph s imports r.scope r.name)).unclaimed =
        (f'.note graph n r.name r.clause.ghostRole (lookup graph s imports r.scope r.name)).unclaimed := by
      rw [unclaimed_note, unclaimed_note, same]
    rw [resolveReferences, resolveReferences]
    dsimp only
    split
    · exact ih noted
    · exact ih (unclaimed_linkReference_congr noted)

theorem unclaimed_referred_congr : (referred graph s imports references f n).2.unclaimed =
    (referred graph s imports references f' n).2.unclaimed :=
  unclaimed_resolveReferences_congr (unclaimed_resolveNarration_congr same)

/-- What a node expands depends on its surroundings in the claims only, if it expands nodes of the module. -/
theorem unclaimed_expand_congr {targets : List Node} {steps : List ResolvedStep}
    (own : ∀ t ∈ targets, graph.contains t.path = true) :
    (expand graph s n targets steps f).unclaimed = (expand graph s' n targets steps f').unclaimed := by
  rw [expand, expand]
  split
  · exact same
  · dsimp only
    rw [unclaimed_addEdges, unclaimed_addEdges, unclaimed_foldl_claim, unclaimed_foldl_claim, unclaimed_addErrors,
      unclaimed_addErrors, same, spanErrors_congr own]

theorem unclaimed_keep_congr {steps : Option (List ResolvedStep)} {owner : Path} :
    (f.keep owner steps).unclaimed = (f'.keep owner steps).unclaimed := by
  cases steps with
  | none => exact same
  | some steps =>
    exact congrArg (fun f : Findings => { f with narrations := f.narrations.insert owner steps }) same

theorem unclaimed_resolveNode_congr (agree : Agree graph references s imports s' imports' n)
    (own : ∀ scope name, Mentions references n scope name →
      ∀ t, lookup graph s' imports' scope name = .found t → graph.contains t.path = true) :
    (resolveNode graph s imports references f n).unclaimed =
      (resolveNode graph s' imports' references f' n).unclaimed := by
  have targets : ∀ t ∈ expandedBy graph s' imports' references n, graph.contains t.path = true := by
    intro t expanded
    obtain ⟨r, member, _, found⟩ := mem_namedTargets.mp (mem_of_mem_firstBy expanded)
    obtain ⟨written, atNode⟩ := mem_ownReferences.mp member
    exact own r.scope r.name (.inr ⟨r, written, atNode, rfl, rfl⟩) t found
  rw [resolveNode_eq, resolveNode_eq, agree.resolveNarration, agree.referred, fst_referred, fst_referred,
    fst_resolveNarration, fst_resolveNarration]
  exact unclaimed_keep_congr (unclaimed_expand_congr (unclaimed_referred_congr same) targets)

end

theorem unclaimed_foldl_congr {nodes : List Node} (same : f.unclaimed = f'.unclaimed)
    (agree : ∀ n ∈ nodes, Agree graph references s imports s' imports' n)
    (own : ∀ n ∈ nodes, ∀ scope name, Mentions references n scope name →
      ∀ t, lookup graph s' imports' scope name = .found t → graph.contains t.path = true) :
    (nodes.foldl (resolveNode graph s imports references) f).unclaimed =
      (nodes.foldl (resolveNode graph s' imports' references) f').unclaimed := by
  induction nodes generalizing f f' with
  | nil => exact same
  | cons n nodes ih =>
    obtain ⟨agreeFirst, agreeLater⟩ := List.forall_mem_cons.mp agree
    obtain ⟨ownFirst, ownLater⟩ := List.forall_mem_cons.mp own
    exact ih (unclaimed_resolveNode_congr same agreeFirst ownFirst) agreeLater ownLater

end Resolution

open Resolution

/-- Every name in a clause or a narration leads to a node of the module on the way outwards from where it stands. -/
structure Candidate.HasOwnNames (c : Candidate) : Prop where
  clauses : ∀ r ∈ c.references, IsOwn c.graph r.scope r.name
  narrations : ∀ n ∈ c.graph.nodes.values, ∀ name ∈ narrationNames n, IsOwn c.graph n.path name

namespace Candidate

instance (c : Candidate) : Decidable c.HasOwnNames :=
  decidable_of_iff ((∀ r ∈ c.references, IsOwn c.graph r.scope r.name) ∧
    ∀ n ∈ c.graph.nodes.values, ∀ name ∈ narrationNames n, IsOwn c.graph n.path name)
    ⟨fun ⟨clauses, narrations⟩ => ⟨clauses, narrations⟩, fun own => ⟨own.clauses, own.narrations⟩⟩

variable {c : Candidate} (own : c.HasOwnNames)
include own

theorem HasOwnNames.exists_found (keyed : c.graph.IsKeyed) {n : Node} (inside : n ∈ c.graph.walk.getD [])
    {scope name : Path} (mentions : Mentions c.references n scope name) :
    ∃ t, c.graph.contains t.path = true ∧ ∀ s imports, lookup c.graph s imports scope name = .found t := by
  rcases mentions with ⟨rfl, narrated⟩ | ⟨r, written, _, rfl, rfl⟩
  · exact (own.narrations n (ModuleGraph.mem_nodes_of_mem_walk inside) name narrated).exists_found keyed
  · exact (own.clauses r written).exists_found keyed

theorem HasOwnNames.agree (keyed : c.graph.IsKeyed) {n : Node} (inside : n ∈ c.graph.walk.getD [])
    {s s' : Surroundings} {imports imports' : ImportTable} :
    Agree c.graph c.references s imports s' imports' n := by
  intro scope name mentions
  obtain ⟨t, _, found⟩ := own.exists_found keyed inside mentions
  rw [found, found]

theorem HasOwnNames.contains_of_found (keyed : c.graph.IsKeyed) {n : Node} (inside : n ∈ c.graph.walk.getD [])
    {s : Surroundings} {imports : ImportTable} {scope name : Path} (mentions : Mentions c.references n scope name)
    {t : Node} (found : lookup c.graph s imports scope name = .found t) : c.graph.contains t.path = true := by
  obtain ⟨t', contained, found'⟩ := own.exists_found keyed inside mentions
  rw [found'] at found
  cases found
  exact contained

theorem HasOwnNames.unclaimed_findings (keyed : c.graph.IsKeyed) (s s' : Surroundings) :
    (findings c s).unclaimed = (findings c s').unclaimed :=
  unclaimed_foldl_congr rfl (fun _ inside => own.agree keyed inside)
    fun _ inside _ _ mentions _ found => own.contains_of_found keyed inside mentions found

/-- Where nobody around it proves a target of the module, nor does so elsewhere, the findings are the same. -/
theorem HasOwnNames.findings_eq (keyed : c.graph.IsKeyed) {s s' : Surroundings}
    (concur : ∀ e ∈ (findings c s').edges.filter Edge.isExpansion, ∀ t ∈ e.targets, Concur c.graph s s' t.path) :
    findings c s = findings c s' :=
  foldl_resolveNode_congr (fun _ inside => own.agree keyed inside)
    (fun _ inside _ _ mentions _ found => own.contains_of_found keyed inside mentions found) concur

end Candidate

/-- A resolution for which the same is found as for one that succeeds, but for claims, comes to the same unless
there are claims on a node that is proved elsewhere, and then reports nothing but these. -/
theorem Candidate.resolve_of_unclaimed_eq {module : Path} {version : Version} {source : Source} {c : Candidate}
    (built : Candidate.build module version source = .ok c) {s s' : Surroundings} {m : ResolvedModule}
    (resolved : c.resolve s = .ok m) (same : (findings c s).unclaimed = (findings c s').unclaimed) :
    c.resolve s' = .ok m ∨
      ∃ errors, c.resolve s' = .error errors ∧ ∀ e ∈ errors, e.isDuplicateExpansion = true := by
  have edges : (findings c s).edges = (findings c s').edges := (congrArg Findings.edges same :)
  have narrations : (findings c s).narrations = (findings c s').narrations := (congrArg Findings.narrations same :)
  have external : (findings c s).external = (findings c s').external := (congrArg Findings.external same :)
  have versus : (findings c s).versus = (findings c s').versus := (congrArg Findings.versus same :)
  have errors : (findings c s).errors.filter (fun e => !e.isDuplicateExpansion) =
      (findings c s').errors.filter fun e => !e.isDuplicateExpansion := (congrArg Findings.errors same :)
  rw [resolve_eq built] at resolved ⊢
  dsimp only at resolved ⊢
  rw [← edges, ← narrations, ← external, ← versus]
  split at resolved
  next none =>
    cases resolved
    obtain ⟨noErrors, acyclic⟩ := List.append_eq_nil_iff.mp none
    rw [noErrors, List.filter_nil, eq_comm, List.filter_eq_nil_iff] at errors
    rw [acyclic, List.append_nil]
    split
    · exact .inl rfl
    · exact .inr ⟨_, rfl, fun e member => by simpa using errors e member⟩
  · cases resolved

/-- Two resolutions of a module with own names come to the same where both succeed. Where one does, the other does
just if no other module of the version in its library proves a target of the module, and otherwise reports
nothing but such proofs. -/
theorem ModuleSource.resolve_of_hasOwnNames {s : ModuleSource} {c : Candidate} (built : s.build = .ok c)
    (own : c.HasOwnNames) (here there : Surroundings) :
    (∀ m m', c.resolve here = .ok m → c.resolve there = .ok m' → m = m') ∧
    ∀ m, c.resolve here = .ok m →
      ((∃ m', c.resolve there = .ok m') ∨ ∃ errors, c.resolve there = .error errors ∧
        ∀ e ∈ errors, ∃ target first second, e = .duplicateExpansion target first second) ∧
      (c.resolve there = .ok m ↔
        ∀ path ∈ m.graph.expandedPaths, there.library.expanderOf path s.version s.path = none) := by
  obtain ⟨source, wellFormed, build⟩ := s.build_eq_ok built
  have keyed : c.graph.IsKeyed := Candidate.isKeyed_of_build build
  have same := own.unclaimed_findings keyed here there
  refine ⟨fun m m' resolved resolved' => ?_, fun m resolved => ⟨?_, ?_⟩⟩
  · rcases Candidate.resolve_of_unclaimed_eq build resolved same with resolved'' | ⟨errors, refused, _⟩
    · exact Except.ok.inj (resolved''.symm.trans resolved')
    · cases refused.symm.trans resolved'
  · rcases Candidate.resolve_of_unclaimed_eq build resolved same with resolved' | ⟨errors, refused, claims⟩
    · exact .inl ⟨m, resolved'⟩
    · refine .inr ⟨errors, refused, fun e member => ?_⟩
      have claim := claims e member
      cases e <;> cases claim
      exact ⟨_, _, _, rfl⟩
  · constructor
    · intro resolved' path expands
      obtain ⟨e, member, t, atEnd, rfl⟩ := ModuleGraph.mem_expandedPaths.mp expands
      exact (ModuleSource.expandsSingly built resolved').2 e member t atEnd
    · intro free
      obtain ⟨module, version, _⟩ := Candidate.frame_of_build build
      have found : findings c there = findings c here := by
        refine own.findings_eq keyed fun e member t atEnd => ?_
        rw [← ModuleSource.expansions_eq built resolved] at member
        have path := free t.path (ModuleGraph.mem_expandedPaths.mpr ⟨e, member, t, atEnd, rfl⟩)
        have path' := (ModuleSource.expandsSingly built resolved).2 e member t atEnd
        rw [← module, ← version] at path path'
        exact path.trans path'.symm
      rw [Candidate.resolve, found, ← Candidate.resolve]
      exact resolved

/-- A module with two assertions. -/
def ownedSource : ModuleSource := ⟨.single "m", .plain 1 0 0,
  "deduc T \x7b asrt C \x7b en = \"c\" \x7d asrt D \x7b en = \"d\" \x7d \x7d"⟩

/-- The module with a deduction that proves one of them from the other. -/
def owningSource : ModuleSource := ⟨ownedSource.path, ownedSource.version,
  ownedSource.text ++ " deduc P of T.C \x7b narration = \"From T.D get T.C.\" \x7d"⟩

/-- Another module that proves it. -/
def claimingSource : ModuleSource := ⟨.single "X", ownedSource.version, "deduc T of m.T.C \x7b\x7d"⟩

/-- An import of another node by a name that the first module uses. -/
def claimingImports : ImportTable := ImportTable.insert {} "T" ⟨claimingSource.path.child "T", none⟩

theorem ModuleSource.resolve_of_hasOwnNames_owningSource : ∃ c m library, owningSource.build = .ok c ∧
    c.HasOwnNames ∧ c.resolve {} = .ok m ∧ c.resolve { imports := claimingImports } = .ok m ∧
    library.expanderOf ((ownedSource.path.child "T").child "C") owningSource.version owningSource.path =
      some (claimingSource.path.child "T") ∧
    ∃ errors, c.resolve { library := library, imports := claimingImports } = .error errors ∧
      ∀ e ∈ errors, ∃ target first second, e = .duplicateExpansion target first second := by
  have shape : ((ownedSource.compile {}).toOption.bind fun owned =>
      (claimingSource.compile { library := ModuleLibrary.insert {} owned.graph }).toOption.bind fun claiming =>
        owningSource.build.toOption.bind fun c => (c.resolve {}).toOption.map fun m =>
          (decide c.HasOwnNames, m.graph.expandedPaths,
            ((ModuleLibrary.insert {} owned.graph).insert claiming.graph).expanderOf
              ((ownedSource.path.child "T").child "C") owningSource.version owningSource.path)) =
      some (true, [(ownedSource.path.child "T").child "C"], some (claimingSource.path.child "T")) := by
    decide +kernel
  obtain ⟨owned, _, shape⟩ := Option.bind_eq_some_iff.mp shape
  obtain ⟨claiming, _, shape⟩ := Option.bind_eq_some_iff.mp shape
  obtain ⟨c, built, shape⟩ := Option.bind_eq_some_iff.mp shape
  obtain ⟨m, resolved, shape⟩ := Option.map_eq_some_iff.mp shape
  obtain ⟨own, shape⟩ := Prod.mk.inj shape
  obtain ⟨expanded, expander⟩ := Prod.mk.inj shape
  have built := Batch.toOption_eq_some_iff.mp built
  have resolved := Batch.toOption_eq_some_iff.mp resolved
  have own := of_decide_eq_true own
  have elsewhere := fun there => ModuleSource.resolve_of_hasOwnNames built own {} there
  have free := ((elsewhere { imports := claimingImports }).2 m resolved).2.mpr fun _ _ => rfl
  refine ⟨c, m, _, built, own, resolved, free, expander, ?_⟩
  rcases ((elsewhere ⟨_, claimingImports, none⟩).2 m resolved).1 with ⟨m', resolved'⟩ | refused
  · cases (elsewhere _).1 m m' resolved resolved'
    have unclaimed := ((elsewhere _).2 m resolved).2.mp resolved' _ (expanded ▸ List.mem_singleton_self _)
    cases expander.symm.trans unclaimed
  · exact refused

end Deductions
