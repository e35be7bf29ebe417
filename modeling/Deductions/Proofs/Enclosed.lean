import Deductions.Proofs.Lookup
import Deductions.Proofs.SingleExpansion
import Deductions.Proofs.Unresolved

namespace Deductions

namespace Resolution

section

variable {graph : ModuleGraph} {s s' : Surroundings} {imports imports' : ImportTable} {references : List Reference}
  {f : Findings} {owner node : Node}

theorem lookups_congr {names : List String}
    (same : ∀ text ∈ names, ∀ name, (Path.parse text).toOption = some name →
      lookup graph s imports owner.path name = lookup graph s' imports' owner.path name) :
    lookups graph s imports owner names = lookups graph s' imports' owner names := by
  refine List.filterMap_congr fun text member => ?_
  cases parsed : (Path.parse text).toOption with
  | none => rfl
  | some name => rw [Option.map_some, Option.map_some, same text member name parsed]

theorem resolveStep_congr {step : NarrationStep}
    (same : ∀ text ∈ step.names, ∀ name, (Path.parse text).toOption = some name →
      lookup graph s imports owner.path name = lookup graph s' imports' owner.path name) :
    resolveStep graph s imports owner f step = resolveStep graph s' imports' owner f step := by
  have antecedents : lookups graph s imports owner step.antecedents =
      lookups graph s' imports' owner step.antecedents := lookups_congr fun text member =>
    same text (mem_firstOccurrences.mpr (List.mem_append_left _ member))
  have conclusions : lookups graph s imports owner step.conclusions =
      lookups graph s' imports' owner step.conclusions := lookups_congr fun text member =>
    same text (mem_firstOccurrences.mpr (List.mem_append_right _ member))
  rw [resolveStep, resolveStep, antecedents, conclusions]

theorem resolveSteps_congr {steps : List NarrationStep}
    (same : ∀ step ∈ steps, ∀ text ∈ step.names, ∀ name, (Path.parse text).toOption = some name →
      lookup graph s imports owner.path name = lookup graph s' imports' owner.path name) :
    resolveSteps graph s imports owner f steps = resolveSteps graph s' imports' owner f steps := by
  induction steps generalizing f with
  | nil => rfl
  | cons step steps ih =>
    obtain ⟨first, later⟩ := List.forall_mem_cons.mp same
    rw [resolveSteps, resolveSteps, resolveStep_congr first]
    dsimp only
    rw [ih later]

theorem resolveNarration_congr (same : ∀ name ∈ Candidate.narrationNames owner,
      lookup graph s imports owner.path name = lookup graph s' imports' owner.path name) :
    resolveNarration graph s imports f owner = resolveNarration graph s' imports' f owner := by
  rw [resolveNarration, resolveNarration]
  cases narrated : owner.narration with
  | none => rfl
  | some steps =>
    dsimp only
    rw [resolveSteps_congr]
    intro step member text inside name parsed
    refine same name ?_
    rw [Candidate.narrationNames, narrated, Option.getD_some]
    exact List.mem_flatMap.mpr ⟨step, member, List.mem_filterMap.mpr ⟨text, inside, parsed⟩⟩

theorem resolveReferences_congr {declared : Nat}
    (same : ∀ r ∈ references,
      lookup graph s imports r.scope r.name = lookup graph s' imports' r.scope r.name) :
    resolveReferences graph s imports node declared f references =
      resolveReferences graph s' imports' node declared f references := by
  induction references generalizing f with
  | nil => rfl
  | cons r references ih =>
    obtain ⟨first, later⟩ := List.forall_mem_cons.mp same
    rw [resolveReferences, resolveReferences, first]
    dsimp only
    split
    · exact ih later
    · rw [ih later]

/-- The surroundings, each with an import table, agree on where the names of the node lead. -/
def Agree (graph : ModuleGraph) (references : List Reference) (s : Surroundings) (imports : ImportTable)
    (s' : Surroundings) (imports' : ImportTable) (n : Node) : Prop :=
  ∀ scope name, Mentions references n scope name →
    lookup graph s imports scope name = lookup graph s' imports' scope name

theorem Agree.resolveNarration (agree : Agree graph references s imports s' imports' node) :
    resolveNarration graph s imports f node = resolveNarration graph s' imports' f node :=
  resolveNarration_congr fun name member => agree node.path name (.inl ⟨rfl, member⟩)

theorem Agree.referred (agree : Agree graph references s imports s' imports' node) :
    referred graph s imports references f node = referred graph s' imports' references f node := by
  rw [Resolution.referred, Resolution.referred, agree.resolveNarration]
  refine resolveReferences_congr fun r member => ?_
  obtain ⟨inside, own⟩ := List.mem_filter.mp member
  exact agree r.scope r.name (.inr ⟨r, inside, beq_iff_eq.mp own, rfl, rfl⟩)

theorem spanErrors_congr {targets : List Node} (own : ∀ t ∈ targets, graph.contains t.path = true) :
    spanErrors graph s node targets = spanErrors graph s' node targets := by
  have same : targets.map (topLevel graph s) = targets.map (topLevel graph s') :=
    List.map_congr_left fun t member => by
      rw [topLevel, topLevel, if_pos (own t member), if_pos (own t member)]
  rw [spanErrors, spanErrors, same]

theorem foldl_claim_congr {targets : List Node}
    (free : ∀ t ∈ targets, s.library.expanderOf t.path graph.version graph.module =
      s'.library.expanderOf t.path graph.version graph.module) :
    targets.foldl (claim graph s node) f = targets.foldl (claim graph s' node) f := by
  induction targets generalizing f with
  | nil => rfl
  | cons t targets ih =>
    obtain ⟨first, later⟩ := List.forall_mem_cons.mp free
    have same : claim graph s node f t = claim graph s' node f t := by rw [claim, claim, first]
    rw [List.foldl_cons, List.foldl_cons, same, ih later]

/-- The expansion that a node adds, if it has any targets. -/
theorem expansions_expand {targets : List Node} {steps : List ResolvedStep} : ∃ origin,
    (expand graph s node targets steps f).edges.filter Edge.isExpansion =
      f.edges.filter Edge.isExpansion ++
        if targets.isEmpty then [] else [.expansion node.ref (targets.map Node.ref) origin] := by
  refine ⟨if isNarrated steps targets then .narrated else .declared, ?_⟩
  rw [expand]
  split
  · rw [List.append_nil]
  · rw [Findings.addEdges, List.filter_append, edges_foldl_claim]
    rfl

theorem expansions_resolveNode : ∃ origin,
    (resolveNode graph s imports references f node).edges.filter Edge.isExpansion =
      f.edges.filter Edge.isExpansion ++
        if (firstBy Node.path (referred graph s imports references f node).1).isEmpty then []
        else [.expansion node.ref
          ((firstBy Node.path (referred graph s imports references f node).1).map Node.ref) origin] := by
  rw [resolveNode_eq, (Findings.Keeps.keep _ _ _).expansions, ← (keeps_referred f node).expansions]
  exact expansions_expand

/-- The expansions of a run are among those that it ends with. -/
theorem expansions_foldl {nodes : List Node} : f.edges.filter Edge.isExpansion ⊆
    (nodes.foldl (resolveNode graph s imports references) f).edges.filter Edge.isExpansion := by
  induction nodes generalizing f with
  | nil => exact List.Subset.refl _
  | cons n nodes ih =>
    have first : f.edges.filter Edge.isExpansion ⊆
        (resolveNode graph s imports references f n).edges.filter Edge.isExpansion := by
      obtain ⟨origin, added⟩ := expansions_resolveNode
      exact added ▸ List.subset_append_left _ _
    exact List.Subset.trans first ih

theorem exists_expansion_of_mem {t : Node}
    (member : t ∈ firstBy Node.path (referred graph s imports references f node).1) :
    ∃ e ∈ (resolveNode graph s imports references f node).edges.filter Edge.isExpansion,
      t.ref ∈ e.targets := by
  obtain ⟨origin, added⟩ := expansions_resolveNode
  rw [List.isEmpty_eq_false_iff.mpr (List.ne_nil_of_mem member), if_neg Bool.false_ne_true] at added
  rw [added]
  exact ⟨_, List.mem_append_right _ List.mem_cons_self, List.mem_map_of_mem member⟩

/-- The surroundings agree on who expands a target. -/
def Concur (graph : ModuleGraph) (s s' : Surroundings) (target : Path) : Prop :=
  s.library.expanderOf target graph.version graph.module =
    s'.library.expanderOf target graph.version graph.module

theorem resolveNode_congr (agree : Agree graph references s imports s' imports' node)
    (targets : ∀ t ∈ firstBy Node.path (referred graph s' imports' references f node).1,
      graph.contains t.path = true ∧ Concur graph s s' t.path) :
    resolveNode graph s imports references f node = resolveNode graph s' imports' references f node := by
  have same : ∀ (ts : List Node) (steps : List ResolvedStep) (g : Findings),
      (∀ t ∈ ts, graph.contains t.path = true ∧ Concur graph s s' t.path) →
      expand graph s node ts steps g = expand graph s' node ts steps g := by
    intro ts steps g targets
    have span : spanErrors graph s node ts = spanErrors graph s' node ts :=
      spanErrors_congr fun t member => (targets t member).1
    have claims : ∀ h, ts.foldl (claim graph s node) h = ts.foldl (claim graph s' node) h :=
      fun h => foldl_claim_congr fun t member => (targets t member).2
    rw [expand, expand, span]
    dsimp only
    rw [claims]
  rw [resolveNode_eq, resolveNode_eq, agree.resolveNarration, agree.referred, same _ _ _ targets]

/-- Two runs are the same if their surroundings agree on all names, and on all targets that one of the
runs ends with. -/
theorem foldl_resolveNode_congr {nodes : List Node}
    (agree : ∀ n ∈ nodes, Agree graph references s imports s' imports' n)
    (own : ∀ n ∈ nodes, ∀ scope name, Mentions references n scope name →
      ∀ t, lookup graph s' imports' scope name = .found t → graph.contains t.path = true)
    (concur : ∀ e ∈ (nodes.foldl (resolveNode graph s' imports' references) f).edges.filter Edge.isExpansion,
      ∀ t ∈ e.targets, Concur graph s s' t.path) :
    nodes.foldl (resolveNode graph s imports references) f =
      nodes.foldl (resolveNode graph s' imports' references) f := by
  induction nodes generalizing f with
  | nil => rfl
  | cons n nodes ih =>
    obtain ⟨agreeFirst, agreeLater⟩ := List.forall_mem_cons.mp agree
    obtain ⟨ownFirst, ownLater⟩ := List.forall_mem_cons.mp own
    rw [List.foldl_cons] at concur
    have same : resolveNode graph s imports references f n = resolveNode graph s' imports' references f n := by
      refine resolveNode_congr agreeFirst fun t member => ⟨?_, ?_⟩
      · obtain ⟨r, inside, _, own, leads⟩ := mem_referred (mem_of_mem_firstBy member)
        exact ownFirst r.scope r.name (.inr ⟨r, inside, own, rfl, rfl⟩) t leads
      · obtain ⟨e, expansion, atEnd⟩ := exists_expansion_of_mem member
        exact concur e (expansions_foldl expansion) t.ref atEnd
    rw [List.foldl_cons, List.foldl_cons, same]
    exact ih agreeLater ownLater concur

end

section

variable {graph : ModuleGraph} {imports : ImportTable} {scope name : Path}

theorem find?_alone (path : Path) (pin : Option Version) : find? graph {} path pin = graph.node? path := by
  have none : ModuleLibrary.owner {} path pin = none := by
    have empty : (ModuleLibrary.outerPaths path).filterMap (fun outer => ModuleLibrary.select {} outer pin) =
        [] := List.filterMap_eq_nil_iff.mpr fun _ _ => rfl
    rw [ModuleLibrary.owner, empty, List.find?_nil]
  rw [find?, none]
  cases graph.node? path <;> rfl

theorem node?_alone (place : Place) : Place.node? graph {} place = graph.node? place.path := by
  obtain ⟨path, reach⟩ := place
  cases reach with
  | module => rfl
  | anywhere pin => exact find?_alone path pin

/-- Without anything around it, a module finds only its own nodes. -/
theorem contains_of_lookup_alone (keyed : graph.IsKeyed) {n : Node}
    (found : lookup graph {} imports scope name = .found n) : graph.contains n.path = true := by
  obtain ⟨place, _, atPlace⟩ := exists_place_of_found found
  rw [node?_alone] at atPlace
  rw [ModuleGraph.contains, SortedMap.contains, keyed _ _ atPlace]
  exact Option.isSome_iff_exists.mpr ⟨n, atPlace⟩

theorem lookup_alone_ne_ghost {target : NodeRef} : lookup graph {} imports scope name ≠ .ghost target := by
  intro ghost
  rw [lookup] at ghost
  dsimp only at ghost
  split at ghost <;> cases ghost

theorem findSome?_places (l : ModuleLibrary) {module : Path} :
    (places module {} scope name).findSome? (Place.node? graph l) =
      ((scopes module scope).findSome? fun outer => graph.node? (outer.join name)).or
        (find? graph l name none) := by
  have absolute : [(⟨name, .anywhere none⟩ : Place)].findSome? (Place.node? graph l) =
      find? graph l name none := by
    rw [List.findSome?_singleton]
    rfl
  have named : ImportTable.get? {} name.head = none := rfl
  have globs : ImportTable.globs {} = [] := rfl
  rw [places, List.findSome?_append, List.findSome?_append, List.findSome?_append, List.findSome?_map,
    absolute, named, globs, Option.map_none, Option.toList_none, List.map_nil, List.findSome?_nil,
    Option.or_none, Option.or_none]
  rfl

/-- A node that a module without imports finds by itself it finds in any library. -/
theorem lookup_of_alone {s : Surroundings} {n : Node} (found : lookup graph {} {} scope name = .found n) :
    lookup graph s {} scope name = .found n := by
  rw [lookup, findSome?_places, find?_alone] at found
  rw [lookup, findSome?_places]
  cases inScopes : (scopes graph.module scope).findSome? fun outer => graph.node? (outer.join name) with
  | some n' =>
    rw [inScopes] at found
    exact found
  | none =>
    rw [inScopes] at found
    cases own : graph.node? name with
    | none =>
      rw [own] at found
      cases found
    | some n' =>
      rw [own] at found
      have atName : find? graph s.library name none = some n' := by rw [find?, own]
      rw [atName]
      exact found

end

end Resolution

open Resolution

/-- The text of the module has no import statement. -/
def ModuleSource.HasNoImports (s : ModuleSource) : Prop :=
  ∀ source, Source.parse s.text = .ok source → source.imports = []

theorem ModuleSource.imports_of_build {s : ModuleSource} {c : Candidate} (built : s.build = .ok c)
    (noImports : s.HasNoImports) : c.imports = {} := by
  obtain ⟨source, parsed, build⟩ := build_eq_ok_iff.mp built
  obtain ⟨_, rfl⟩ := Candidate.build_eq_ok build
  rw [noImports source parsed]
  rfl

section

variable {c : Candidate} {r : ResolvedModule} (alone : c.resolve {} = .ok r)
include alone

/-- Where a module resolves by itself, each of its names leads to a node. -/
theorem Candidate.exists_lookup_alone {n : Node} (inside : n ∈ c.graph.walk.getD []) {scope name : Path}
    (mentions : Mentions c.references n scope name) :
    ∃ t, lookup c.graph {} (c.imports.mergedWith {}) scope name = .found t := by
  cases result : lookup c.graph {} (c.imports.mergedWith {}) scope name with
  | found t => exact ⟨t, rfl⟩
  | ghost target => exact absurd result lookup_alone_ne_ghost
  | missing =>
    have misses : (findings c {}).Misses n.path name :=
      misses_findings.mpr ⟨n, inside, rfl, scope, mentions, result⟩
    rw [Findings.Misses, (resolve_eq_ok alone).1] at misses
    cases misses

/-- Surroundings in which nobody expands its targets change nothing for such a module. -/
theorem Candidate.findings_of_alone (keyed : c.graph.IsKeyed) (noImports : c.imports = {})
    {s : Surroundings} (given : s.imports = {})
    (free : ∀ e ∈ (findings c {}).edges.filter Edge.isExpansion, ∀ t ∈ e.targets,
      s.library.expanderOf t.path c.version c.module = none) : findings c s = findings c {} := by
  have merged : c.imports.mergedWith {} = {} := by
    rw [noImports]
    rfl
  have leads : ∀ n ∈ c.graph.walk.getD [], ∀ scope name, Mentions c.references n scope name →
      ∃ t, lookup c.graph {} {} scope name = .found t := fun n inside scope name mentions =>
    merged ▸ exists_lookup_alone alone inside mentions
  rw [findings] at free ⊢
  rw [findings, given]
  dsimp only at free ⊢
  rw [merged] at free ⊢
  refine foldl_resolveNode_congr (fun n inside scope name mentions => ?_)
    (fun n inside scope name mentions t found => contains_of_lookup_alone keyed found) free
  obtain ⟨t, found⟩ := leads n inside scope name mentions
  rw [found, lookup_of_alone found]

end

/-- A module that resolves by itself resolves to the same in every library in which no other module of
its version expands one of its targets. -/
theorem ModuleSource.resolve_eq_alone_iff {s : ModuleSource} {c : Candidate} (built : s.build = .ok c)
    (noImports : s.HasNoImports) {r : ResolvedModule} (alone : c.resolve {} = .ok r)
    {library : ModuleLibrary} {previous : Option Snapshot} : c.resolve ⟨library, {}, previous⟩ = .ok r ↔
      ∀ path ∈ r.graph.expandedPaths, library.expanderOf path s.version s.path = none := by
  constructor
  · intro resolved path expands
    obtain ⟨e, member, t, atEnd, rfl⟩ := ModuleGraph.mem_expandedPaths.mp expands
    exact (ModuleSource.expandsSingly built resolved).2 e member t atEnd
  · intro free
    obtain ⟨_, _, build⟩ := s.build_eq_ok built
    obtain ⟨module, version, _⟩ := Candidate.frame_of_build build
    have same : findings c ⟨library, {}, previous⟩ = findings c {} := by
      refine Candidate.findings_of_alone alone (Candidate.isKeyed_of_build build)
        (imports_of_build built noImports) rfl fun e member t atEnd => ?_
      rw [module, version]
      rw [← ModuleSource.expansions_eq built alone] at member
      exact free t.path (ModuleGraph.mem_expandedPaths.mpr ⟨e, member, t, atEnd, rfl⟩)
    rw [← alone, Candidate.resolve, Candidate.resolve, same]

end Deductions
