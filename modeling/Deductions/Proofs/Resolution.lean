import Deductions.Resolution

namespace Deductions

namespace Resolution

/-- Keeps the narration of a node, if it has one. -/
def Findings.keep (f : Findings) (owner : Path) : Option (List ResolvedStep) → Findings
  | none => f
  | some steps => { f with narrations := f.narrations.insert owner steps }

variable {graph : ModuleGraph} {s : Surroundings} {imports : ImportTable}

/-- The references of a node, resolved after its narration. -/
def referred (graph : ModuleGraph) (s : Surroundings) (imports : ImportTable)
    (references : List Reference) (f : Findings) (n : Node) : List Node × Findings :=
  let own := references.filter fun r => r.source == n.path
  resolveReferences graph s imports n (own.filter fun r => r.clause == .of).length
    (resolveNarration graph s imports f n).2 own

theorem resolveNode_eq (references : List Reference) (f : Findings) (n : Node) :
    resolveNode graph s imports references f n =
      (expand graph s n (firstBy Node.path (referred graph s imports references f n).1)
        ((resolveNarration graph s imports f n).1.getD []) (referred graph s imports references f n).2).keep
        n.path (resolveNarration graph s imports f n).1 := by
  rw [resolveNode, referred]
  dsimp only
  cases (resolveNarration graph s imports f n).1 <;> rfl

theorem mem_lookups {owner : Node} {names : List String} {l : Path × Lookup} :
    l ∈ lookups graph s imports owner names ↔ ∃ text ∈ names, (Path.parse text).toOption = some l.1 ∧
      l.2 = lookup graph s imports owner.path l.1 := by
  rw [lookups, List.mem_filterMap]
  constructor
  · rintro ⟨text, member, found⟩
    obtain ⟨path, parsed, rfl⟩ := Option.map_eq_some_iff.mp found
    exact ⟨text, member, parsed, rfl⟩
  · rintro ⟨text, member, parsed, same⟩
    exact ⟨text, member, Option.map_eq_some_iff.mpr ⟨l.1, parsed, by rw [← same]⟩⟩

end Resolution

def ModuleGraph.expansions (g : ModuleGraph) : List Edge := g.edges.filter Edge.isExpansion

/-- The sources of the expansions, as often as there are such expansions. -/
def ModuleGraph.expansionSources (g : ModuleGraph) : List Path := g.expansions.map fun e => e.source.path

theorem ModuleGraph.addEdge_eq_ok {g g' : ModuleGraph} {e : Edge} (added : g.addEdge e = .ok g') :
    g' = { g with edges := g.edges ++ [e] } ∧
      (e.isExpansion = true → e.source.path ∉ g.expansionSources) := by
  simp only [addEdge, bind, Except.bind, throw, throwThe, MonadExceptOf.throw] at added
  repeat' split at added
  all_goals try cases added
  next single =>
    refine ⟨rfl, fun expansion member => single ?_⟩
    obtain ⟨other, inside, same⟩ := List.mem_map.mp member
    obtain ⟨inside, otherExpansion⟩ := List.mem_filter.mp inside
    rw [expansion, Bool.true_and, expansionOf, List.find?_isSome]
    exact ⟨other, inside, by simp [otherExpansion, same]⟩

theorem ModuleGraph.contains_of_addEdge {g g' : ModuleGraph} {e : Edge} (added : g.addEdge e = .ok g') :
    g.contains e.source.path = true := by
  simp only [addEdge, bind, Except.bind, throw, throwThe, MonadExceptOf.throw] at added
  split at added
  · cases added
  next stored => simpa using stored

/-- A node is the source of one expansion at most if it was before. -/
theorem ModuleGraph.nodup_expansionSources_addEdge {g g' : ModuleGraph} {e : Edge} (added : g.addEdge e = .ok g')
    (distinct : g.expansionSources.Nodup) : g'.expansionSources.Nodup := by
  obtain ⟨rfl, single⟩ := addEdge_eq_ok added
  rw [expansionSources, expansions, List.filter_append, List.map_append, List.nodup_append]
  cases expansion : e.isExpansion with
  | false => simpa [expansion, expansionSources, expansions] using distinct
  | true =>
    refine ⟨distinct, by simp [expansion], ?_⟩
    rintro path old _ new rfl
    simp only [expansion, List.filter_cons_of_pos, List.filter_nil, List.map_cons, List.map_nil,
      List.mem_singleton] at new
    exact single expansion (new ▸ old)

namespace Resolution

def attachEdge (state : ModuleGraph × List ResolveError) (e : Edge) : ModuleGraph × List ResolveError :=
  match state.1.addEdge e with
  | .ok graph => (graph, state.2)
  | .error error => (state.1, state.2 ++ [.graph error])

theorem foldl_attachEdge_eq {edges : List Edge} {graph graph' : ModuleGraph} {errors : List ResolveError}
    (attached : edges.foldl attachEdge (graph, errors) = (graph', [])) :
    errors = [] ∧ graph' = { graph with edges := graph.edges ++ edges } ∧
      (graph.expansionSources.Nodup → graph'.expansionSources.Nodup) := by
  induction edges generalizing graph errors with
  | nil =>
    cases attached
    exact ⟨rfl, by simp, id⟩
  | cons e edges ih =>
    rw [List.foldl_cons, attachEdge] at attached
    dsimp only at attached
    split at attached
    next next added =>
      have single := ModuleGraph.nodup_expansionSources_addEdge added
      obtain ⟨rfl, _⟩ := ModuleGraph.addEdge_eq_ok added
      obtain ⟨none, rfl, kept⟩ := ih attached
      exact ⟨none, by simp, kept ∘ single⟩
    next error refused =>
      have none := (ih attached).1
      simp at none

theorem isGraph_of_mem_attach {graph : ModuleGraph} {edges : List Edge} :
    ∀ e ∈ (attach graph edges).2, ∃ error, e = .graph error := by
  have general : ∀ (edges : List Edge) (state : ModuleGraph × List ResolveError),
      (∀ e ∈ state.2, ∃ error, e = .graph error) →
        ∀ e ∈ (edges.foldl attachEdge state).2, ∃ error, e = .graph error := by
    intro edges
    induction edges with
    | nil => exact fun _ all => all
    | cons edge edges ih =>
      intro state all
      refine ih _ fun e member => ?_
      unfold attachEdge at member
      split at member
      · exact all e member
      · rcases List.mem_append.mp member with old | new
        · exact all e old
        · exact ⟨_, List.mem_singleton.mp new⟩
  exact general edges (graph, []) fun e member => absurd member List.not_mem_nil

end Resolution

open Resolution

/-- A candidate resolves just if nothing is found wrong with it; its edges are those found. -/
theorem Candidate.resolve_eq_ok {c : Candidate} {s : Surroundings} {m : ResolvedModule}
    (resolved : c.resolve s = .ok m) :
    (findings c s).errors = [] ∧
      m.graph = { c.graph with edges := c.graph.edges ++ (findings c s).edges } ∧
      (c.graph.expansionSources.Nodup → m.graph.expansionSources.Nodup) := by
  rw [Candidate.resolve] at resolved
  dsimp only at resolved
  split at resolved
  · cases resolved
  next noErrors =>
    split at resolved
    · cases resolved
    next accepted =>
      have none : (attach c.graph (findings c s).edges).2 = [] := by simpa using accepted
      have attached : (findings c s).edges.foldl attachEdge (c.graph, []) =
          ((attach c.graph (findings c s).edges).1, []) := Prod.ext rfl none
      obtain ⟨_, graph, kept⟩ := foldl_attachEdge_eq attached
      cases resolved
      refine ⟨?_, graph, kept⟩
      simp only [Bool.not_eq_true', Bool.not_eq_false, List.isEmpty_iff, List.append_eq_nil_iff] at noErrors
      exact noErrors.1

theorem Candidate.narrations_of_resolve {c : Candidate} {s : Surroundings} {m : ResolvedModule}
    (resolved : c.resolve s = .ok m) : m.narrations = (findings c s).narrations := by
  rw [Candidate.resolve] at resolved
  dsimp only at resolved
  split at resolved
  · cases resolved
  · split at resolved
    · cases resolved
    · cases resolved
      rfl

end Deductions
