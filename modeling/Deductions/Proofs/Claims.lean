import Deductions.Proofs.FirstOccurrence
import Deductions.Proofs.Resolution
import Deductions.Proofs.SortedMap

namespace Deductions

namespace Resolution

/-- What is done between two expansions: errors stay, claims and expansions are as before. -/
structure Findings.Keeps (f f' : Findings) : Prop where
  errors : f'.errors = [] → f.errors = []
  claimed : f'.claimed = f.claimed
  expansions : f'.edges.filter Edge.isExpansion = f.edges.filter Edge.isExpansion

namespace Findings.Keeps

variable {f f' f'' : Findings}

theorem refl (f : Findings) : f.Keeps f := ⟨id, rfl, rfl⟩

theorem trans (first : f.Keeps f') (second : f'.Keeps f'') : f.Keeps f'' :=
  ⟨fun none => first.errors (second.errors none), second.claimed.trans first.claimed,
    second.expansions.trans first.expansions⟩

theorem addErrors (f : Findings) (errors : List ResolveError) : f.Keeps (f.addErrors errors) :=
  ⟨fun none => (List.append_eq_nil_iff.mp none).1, rfl, rfl⟩

theorem addEdges (f : Findings) {edges : List Edge} (other : ∀ e ∈ edges, e.isExpansion = false) :
    f.Keeps (f.addEdges edges) := by
  have noExpansion : edges.filter Edge.isExpansion = [] :=
    List.filter_eq_nil_iff.mpr fun e member isExpansion => by
      rw [other e member] at isExpansion
      cases isExpansion
  refine ⟨id, rfl, ?_⟩
  rw [Findings.addEdges, List.filter_append, noExpansion, List.append_nil]

theorem note (f : Findings) (graph : ModuleGraph) (source : Node) (name : Path) (role : GhostRole)
    (result : Lookup) : f.Keeps (f.note graph source name role result) := by
  cases result with
  | found node =>
    rw [Findings.note]
    split
    · exact refl f
    · exact ⟨id, rfl, rfl⟩
  | ghost target =>
    rw [Findings.note]
    split
    · exact refl f
    · exact addEdges f (by simp [Edge.isExpansion])
  | missing =>
    rw [Findings.note]
    split
    · exact refl f
    · exact addErrors f _

theorem keep (f : Findings) (owner : Path) (steps : Option (List ResolvedStep)) :
    f.Keeps (f.keep owner steps) := by
  cases steps <;> exact ⟨id, rfl, rfl⟩

end Findings.Keeps

variable {graph : ModuleGraph} {s : Surroundings} {imports : ImportTable} {references : List Reference}
  {f : Findings} {node : Node}

theorem keeps_noteLookups (graph : ModuleGraph) (owner : Node) (f : Findings)
    (found : List (Path × Lookup)) : f.Keeps (noteLookups graph owner f found) := by
  induction found generalizing f with
  | nil => exact .refl f
  | cons l found ih => exact (Findings.Keeps.note f graph owner l.1 .narration l.2).trans (ih _)

theorem isExpansion_inferences {owner : Node} {step : NarrationStep} {antecedents conclusions : List Node} :
    ∀ e ∈ inferences graph owner step antecedents conclusions, e.isExpansion = false := by
  intro e member
  obtain ⟨a, _, member⟩ := List.mem_flatMap.mp member
  obtain ⟨c, _, rfl⟩ := List.mem_map.mp member
  rfl

theorem keeps_resolveStep (owner : Node) (f : Findings) (step : NarrationStep) :
    f.Keeps (resolveStep graph s imports owner f step).2 :=
  ((keeps_noteLookups graph owner f _).trans (.addErrors _ _)).trans (.addEdges _ isExpansion_inferences)

theorem keeps_resolveSteps (owner : Node) (f : Findings) (steps : List NarrationStep) :
    f.Keeps (resolveSteps graph s imports owner f steps).2 := by
  induction steps generalizing f with
  | nil => exact .refl f
  | cons step steps ih => exact (keeps_resolveStep owner f step).trans (ih _)

theorem keeps_resolveNarration (f : Findings) (owner : Node) :
    f.Keeps (resolveNarration graph s imports f owner).2 := by
  rw [resolveNarration]
  cases owner.narration with
  | none => exact .refl f
  | some steps => exact keeps_resolveSteps owner f steps

theorem keeps_linkSupposition (node target : Node) (clause : Clause) {edge : Edge} (f : Findings)
    (other : edge.isExpansion = false) : f.Keeps (linkSupposition graph node target clause edge f) := by
  have added : f.Keeps (f.addEdges [edge]) := .addEdges f (by simpa using other)
  rw [linkSupposition]
  dsimp only
  split
  · split
    · exact added.trans ⟨id, rfl, rfl⟩
    · exact added
  · exact .addErrors f _

/-- The names of the clauses make no expansion one by one. -/
theorem keeps_linkReference (node : Node) (declared : Nat) (clause : Clause) (target : Node)
    (f : Findings) : f.Keeps (linkReference graph node declared clause target f) := by
  cases clause with
  | of => exact .addErrors f _
  | on => exact .addEdges f (by simp [Edge.isExpansion])
  | versus => exact keeps_linkSupposition node target .versus f rfl
  | contra => exact keeps_linkSupposition node target .contra f rfl

theorem keeps_resolveReferences (node : Node) (declared : Nat) (f : Findings)
    (references : List Reference) :
    f.Keeps (resolveReferences graph s imports node declared f references).2 := by
  induction references generalizing f with
  | nil => exact .refl f
  | cons r references ih =>
    have noted := Findings.Keeps.note f graph node r.name r.clause.ghostRole
      (lookup graph s imports r.scope r.name)
    rw [resolveReferences]
    dsimp only
    split
    · exact noted.trans (ih _)
    · exact (noted.trans (keeps_linkReference node declared r.clause _ _)).trans (ih _)

/-- What a node expands is what a name in an `of` clause leads to. -/
theorem mem_resolveReferences {node target : Node} {declared : Nat} {f : Findings}
    {references : List Reference}
    (member : target ∈ (resolveReferences graph s imports node declared f references).1) :
    ∃ r ∈ references, r.clause = .of ∧ lookup graph s imports r.scope r.name = .found target := by
  induction references generalizing f with
  | nil => cases member
  | cons r references ih =>
    have later : (∃ r ∈ references, r.clause = .of ∧ lookup graph s imports r.scope r.name = .found target) →
        ∃ r' ∈ r :: references, r'.clause = .of ∧ lookup graph s imports r'.scope r'.name = .found target :=
      fun ⟨r', inside, leads⟩ => ⟨r', List.mem_cons_of_mem _ inside, leads⟩
    rw [resolveReferences] at member
    dsimp only at member
    split at member
    · exact later (ih member)
    next found =>
      split at member
      next isOf =>
        rcases List.mem_cons.mp member with rfl | member
        · refine ⟨r, List.mem_cons_self, isOf, ?_⟩
          cases result : lookup graph s imports r.scope r.name <;> rw [result] at found <;> cases found
          rfl
        · exact later (ih member)
      · exact later (ih member)

theorem mem_referred {f : Findings} {node target : Node}
    (member : target ∈ (referred graph s imports references f node).1) :
    ∃ r ∈ references, r.clause = .of ∧ r.source = node.path ∧
      lookup graph s imports r.scope r.name = .found target := by
  obtain ⟨r, inside, isOf, leads⟩ := mem_resolveReferences member
  obtain ⟨inside, own⟩ := List.mem_filter.mp inside
  exact ⟨r, inside, isOf, beq_iff_eq.mp own, leads⟩

theorem keeps_referred (f : Findings) (node : Node) :
    f.Keeps (referred graph s imports references f node).2 :=
  (keeps_resolveNarration f node).trans (keeps_resolveReferences node _ _ _)

/-- A claim without error is on a target that nobody has. -/
theorem claim_eq {target : Node} (noErrors : (claim graph s node f target).errors = []) :
    f.errors = [] ∧ f.claimed.find? target.path = none ∧
      s.library.expanderOf target.path graph.version graph.module = none ∧
      claim graph s node f target = { f with claimed := f.claimed.insert target.path node.path } := by
  unfold claim at noErrors ⊢
  dsimp only at noErrors ⊢
  cases local' : f.claimed.find? target.path with
  | some first =>
    rw [local'] at noErrors
    simp [Findings.addErrors] at noErrors
  | none =>
    cases other : s.library.expanderOf target.path graph.version graph.module with
    | some first =>
      rw [local', other] at noErrors
      simp [Findings.addErrors] at noErrors
    | none =>
      rw [local', other] at noErrors
      exact ⟨noErrors, rfl, rfl, rfl⟩

theorem edges_foldl_claim {targets : List Node} :
    (targets.foldl (claim graph s node) f).edges = f.edges := by
  induction targets generalizing f with
  | nil => rfl
  | cons target targets ih =>
    refine ih.trans ?_
    rw [claim]
    split <;> rfl

theorem foldl_claim {targets : List Node}
    (noErrors : (targets.foldl (claim graph s node) f).errors = []) :
    f.errors = [] ∧
      (∀ path owner, f.claimed.find? path = some owner →
        (targets.foldl (claim graph s node) f).claimed.find? path = some owner) ∧
      ∀ target ∈ targets,
        (targets.foldl (claim graph s node) f).claimed.find? target.path = some node.path ∧
        s.library.expanderOf target.path graph.version graph.module = none := by
  induction targets generalizing f with
  | nil => exact ⟨noErrors, fun _ _ found => found, fun target member => nomatch member⟩
  | cons target targets ih =>
    rw [List.foldl_cons] at noErrors ⊢
    obtain ⟨none, retains, claims⟩ := ih noErrors
    obtain ⟨none, fresh, free, same⟩ := claim_eq none
    have claimed : (claim graph s node f target).claimed = f.claimed.insert target.path node.path := by
      rw [same]
    refine ⟨none, fun path owner found => retains path owner ?_, ?_⟩
    · -- a claim is on a path that nobody had, so it takes none away
      have other : path ≠ target.path := by
        rintro rfl
        rw [fresh] at found
        cases found
      rw [claimed, SortedMap.find?_insert_of_ne _ _ other]
      exact found
    · intro target' member
      rcases List.mem_cons.mp member with rfl | member
      · exact ⟨retains _ _ (by rw [claimed, SortedMap.find?_insert_self]), free⟩
      · exact claims target' member

variable (graph s references) in
/-- Each expansion, if nothing is wrong so far, is of a node with an `of` clause, which has claimed
the targets; and no other module of the library expands them. -/
def Findings.HasClaimed (f : Findings) : Prop :=
  f.errors = [] → ∀ e ∈ f.edges.filter Edge.isExpansion,
    (∃ r ∈ references, r.clause = .of ∧ r.source = e.source.path) ∧
    ∀ t ∈ e.targets, f.claimed.find? t.path = some e.source.path ∧
      s.library.expanderOf t.path graph.version graph.module = none

theorem Findings.HasClaimed.of_keeps {f' : Findings} (claims : f.HasClaimed graph s references)
    (keeps : f.Keeps f') : f'.HasClaimed graph s references := by
  intro none e member
  rw [keeps.claimed]
  exact claims (keeps.errors none) e (keeps.expansions ▸ member)

theorem Findings.HasClaimed.expand {targets : List Node} {steps : List ResolvedStep}
    (claims : f.HasClaimed graph s references)
    (isOf : targets ≠ [] → ∃ r ∈ references, r.clause = .of ∧ r.source = node.path) :
    (expand graph s node targets steps f).HasClaimed graph s references := by
  rw [Resolution.expand]
  split
  · exact claims
  next some =>
    rw [List.isEmpty_iff] at some
    intro noErrors e member
    obtain ⟨none, retains, claimed⟩ := foldl_claim noErrors
    have none : f.errors = [] := (List.append_eq_nil_iff.mp none).1
    rw [Findings.addEdges, List.filter_append, edges_foldl_claim] at member
    rcases List.mem_append.mp member with old | new
    · obtain ⟨written, claimed⟩ := claims none e old
      refine ⟨written, fun t atEnd => ?_⟩
      obtain ⟨owner, free⟩ := claimed t atEnd
      exact ⟨retains t.path e.source.path owner, free⟩
    · obtain rfl := List.mem_singleton.mp (List.mem_filter.mp new).1
      refine ⟨isOf some, fun t atEnd => ?_⟩
      obtain ⟨target, inside, rfl⟩ := List.mem_map.mp atEnd
      exact claimed target inside

theorem Findings.HasClaimed.resolveNode (claims : f.HasClaimed graph s references) (n : Node) :
    (resolveNode graph s imports references f n).HasClaimed graph s references := by
  rw [resolveNode_eq]
  refine .of_keeps (.expand (claims.of_keeps (keeps_referred f n)) fun some => ?_) (.keep _ _ _)
  obtain ⟨target, member⟩ := List.exists_mem_of_ne_nil _ some
  obtain ⟨r, inside, isOf, own, _⟩ := mem_referred (mem_of_mem_firstBy member)
  exact ⟨r, inside, isOf, own⟩

theorem hasClaimed_findings (c : Candidate) (s : Surroundings) :
    (findings c s).HasClaimed c.graph s c.references := by
  have run : ∀ (nodes : List Node) (f : Findings), f.HasClaimed c.graph s c.references →
      (nodes.foldl (resolveNode c.graph s (c.imports.mergedWith s.imports) c.references) f).HasClaimed
        c.graph s c.references := by
    intro nodes
    induction nodes with
    | nil => exact fun _ claims => claims
    | cons n nodes ih => exact fun f claims => ih _ (claims.resolveNode n)
  exact run _ {} fun _ e member => nomatch member

end Resolution

end Deductions
