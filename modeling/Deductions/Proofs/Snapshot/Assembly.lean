import Deductions.Batch
import Deductions.Proofs.Graph.Forest
import Deductions.Proofs.SortedMap

namespace Deductions

/-- What is added with a module. -/
structure Addition where
  graph : ModuleGraph
  narrations : SortedMap Path (List ResolvedStep)
  external : List NodeRef

namespace Snapshot

/-- Adds modules one after the other; the path that is taken twice where one is. -/
def addAll (s : Snapshot) (additions : List Addition) : Except Path Snapshot :=
  additions.foldlM (fun s a => s.addModule a.graph a.narrations a.external) s

theorem addModule_eq_ok {s s' : Snapshot} {g : ModuleGraph} {narrations : SortedMap Path (List ResolvedStep)}
    {external : List NodeRef} (keyed : g.IsKeyed) (added : s.addModule g narrations external = .ok s') :
    s.modules.contains g.module = false ∧ (∀ n ∈ g.nodes.values, s.contains n.path = false) ∧
      s' = { s with
        modules := s.modules.insert g.module g.roots
        nodes := s.nodes.union g.nodes
        edges := s.edges ++ g.edges
        narrations := s.narrations.union narrations
        external := external.foldl SortedSet.insert s.external } := by
  have nodes : g.nodes.values.foldl (fun nodes n => nodes.insert n.path n) s.nodes = s.nodes.union g.nodes := by
    rw [SortedMap.values, List.foldl_map, SortedMap.union]
    refine List.foldl_ext _ _ _ fun m e entry => ?_
    rw [keyed e.1 e.2 (SortedMap.find?_eq_some_iff.mpr entry)]
  rw [addModule, nodes] at added
  split at added
  · cases added
  next fresh =>
    split at added
    · cases added
    next none =>
      refine ⟨Bool.eq_false_iff.mpr fresh, fun n member => ?_, (Except.ok.inj added).symm⟩
      exact Bool.eq_false_iff.mpr (List.find?_eq_none.mp none n member)

/-- The narrations of a snapshot are those that were added, one after the other. -/
theorem narrations_addAll {s s' : Snapshot} {additions : List Addition}
    (keyed : ∀ a ∈ additions, a.graph.IsKeyed) (added : s.addAll additions = .ok s') :
    s'.narrations = additions.foldl (fun m a => m.union a.narrations) s.narrations := by
  induction additions generalizing s with
  | nil =>
    cases added
    rfl
  | cons a additions ih =>
    obtain ⟨first, later⟩ := List.forall_mem_cons.mp keyed
    rw [addAll, List.foldlM_cons] at added
    cases next : s.addModule a.graph a.narrations a.external with
    | error path =>
      rw [next] at added
      cases added
    | ok s₁ =>
      rw [next] at added
      obtain ⟨_, _, rfl⟩ := addModule_eq_ok first next
      exact ih later added

/-- The snapshot holds what was added, and nothing of it twice. -/
structure IsMadeOf (s : Snapshot) (additions : List Addition) : Prop where
  distinct : (additions.map fun a => a.graph.module).Nodup
  modules : ∀ path roots, s.modules.find? path = some roots ↔
    ∃ a ∈ additions, a.graph.module = path ∧ a.graph.roots = roots
  nodes : ∀ path n, s.node? path = some n ↔ ∃ a ∈ additions, a.graph.node? path = some n
  disjoint : ∀ a ∈ additions, ∀ b ∈ additions, ∀ path, a.graph.contains path = true →
    b.graph.contains path = true → a.graph.module = b.graph.module
  edges : s.edges = additions.flatMap fun a => a.graph.edges
  external : ∀ r, r ∈ SortedSet.toList s.external ↔ ∃ a ∈ additions, r ∈ a.external

/-- Two of the additions have modules of this path, or both have a node there. -/
def IsTakenTwice (additions : List Addition) (path : Path) : Prop :=
  ∃ before a after, additions = before ++ a :: after ∧ ∃ b ∈ before,
    b.graph.module = path ∧ a.graph.module = path ∨
      b.graph.contains path = true ∧ a.graph.contains path = true

theorem isMadeOf_nil (library : String) (version : Version) :
    IsMadeOf { library := library, version := version } [] where
  distinct := .nil
  modules _ _ := by simp
  nodes _ _ := by simp [node?]
  disjoint a member := nomatch member
  edges := rfl
  external r := by simp [SortedSet.toList, SortedMap.keys, SortedMap.empty]

namespace IsMadeOf

variable {s s' : Snapshot} {additions others : List Addition} {a b : Addition} (madeOf : s.IsMadeOf additions)
include madeOf

theorem mem_keys_iff {path : Path} : path ∈ s.modules.keys ↔ path ∈ additions.map fun a => a.graph.module := by
  rw [← SortedMap.contains_iff, SortedMap.contains, Option.isSome_iff_exists, List.mem_map]
  simp only [madeOf.modules]
  constructor
  · rintro ⟨_, a, member, same, _⟩
    exact ⟨a, member, same⟩
  · rintro ⟨a, member, same⟩
    exact ⟨_, a, member, same, rfl⟩

theorem contains_iff {path : Path} : s.contains path = true ↔ ∃ a ∈ additions, a.graph.contains path = true := by
  rw [contains, SortedMap.contains, Option.isSome_iff_exists]
  simp only [ModuleGraph.contains_iff]
  constructor
  · rintro ⟨n, found⟩
    obtain ⟨a, member, found⟩ := (madeOf.nodes path n).mp found
    exact ⟨a, member, n, found⟩
  · rintro ⟨a, member, n, found⟩
    exact ⟨n, (madeOf.nodes path n).mpr ⟨a, member, found⟩⟩

/-- An addition is told by its module. -/
theorem eq_of_module (member : a ∈ additions) (member' : b ∈ additions)
    (same : a.graph.module = b.graph.module) : a = b :=
  List.inj_on_of_nodup_map madeOf.distinct member member' same

theorem addModule (keyed : a.graph.IsKeyed)
    (added : s.addModule a.graph a.narrations a.external = .ok s') : s'.IsMadeOf (additions ++ [a]) := by
  obtain ⟨freshModule, freshNodes, rfl⟩ := addModule_eq_ok keyed added
  have newModule : a.graph.module ∉ additions.map fun a => a.graph.module := by
    rw [← madeOf.mem_keys_iff, ← SortedMap.contains_iff, freshModule]
    exact Bool.false_ne_true
  have newNodes : ∀ path, a.graph.contains path = true → ∀ b ∈ additions, ¬ b.graph.contains path = true := by
    intro path inside b member old
    obtain ⟨n, found⟩ := ModuleGraph.contains_iff.mp inside
    have own := keyed path n found
    have fresh := freshNodes n (keyed.mem_values_iff.mpr (own.symm ▸ found))
    rw [own, madeOf.contains_iff.mpr ⟨b, member, old⟩] at fresh
    cases fresh
  constructor
  case distinct =>
    rw [List.map_append, List.nodup_append]
    refine ⟨madeOf.distinct, List.nodup_singleton _, fun path old path' new same => newModule ?_⟩
    rw [same, List.mem_singleton.mp new] at old
    exact old
  case modules =>
    intro path roots
    simp only [List.mem_append, List.mem_singleton, or_and_right, exists_or, exists_eq_left]
    by_cases isNew : path = a.graph.module
    · subst isNew
      have none : ¬ ∃ b ∈ additions, b.graph.module = a.graph.module ∧ b.graph.roots = roots := by
        rintro ⟨b, member, same, _⟩
        exact newModule (List.mem_map.mpr ⟨b, member, same⟩)
      simp [none]
    · rw [SortedMap.find?_insert_of_ne _ _ isNew, madeOf.modules]
      simp [Ne.symm isNew]
  case nodes =>
    intro path n
    rw [node?, SortedMap.find?_union]
    simp only [List.mem_append, List.mem_singleton, or_and_right, exists_or, exists_eq_left]
    rw [← madeOf.nodes path n, Option.or_eq_some_iff, or_comm]
    refine or_congr_left (and_iff_right_of_imp fun old => ?_)
    obtain ⟨b, member, found⟩ := (madeOf.nodes path n).mp old
    refine Option.eq_none_iff_forall_ne_some.mpr fun n' new => ?_
    exact newNodes path (ModuleGraph.contains_iff.mpr ⟨n', new⟩) b member (ModuleGraph.contains_iff.mpr ⟨n, found⟩)
  case disjoint =>
    intro b inB c inC path atB atC
    rcases List.mem_append.mp inB with oldB | newB <;> rcases List.mem_append.mp inC with oldC | newC
    · exact madeOf.disjoint b oldB c oldC path atB atC
    · exact absurd atB (newNodes path (List.mem_singleton.mp newC ▸ atC) b oldB)
    · exact absurd atC (newNodes path (List.mem_singleton.mp newB ▸ atB) c oldC)
    · rw [List.mem_singleton.mp newB, List.mem_singleton.mp newC]
  case edges => simp [madeOf.edges]
  case external =>
    intro r
    rw [SortedSet.mem_toList_foldl, madeOf.external]
    simp only [List.mem_append, List.mem_singleton, or_and_right, exists_or, exists_eq_left]

theorem addAll (keyed : ∀ a ∈ others, a.graph.IsKeyed) (added : s.addAll others = .ok s') :
    s'.IsMadeOf (additions ++ others) ∧ s'.version = s.version := by
  induction others generalizing s additions with
  | nil =>
    cases added
    rw [List.append_nil]
    exact ⟨madeOf, rfl⟩
  | cons a others ih =>
    obtain ⟨first, later⟩ := List.forall_mem_cons.mp keyed
    rw [Snapshot.addAll, List.foldlM_cons] at added
    cases next : s.addModule a.graph a.narrations a.external with
    | error path =>
      rw [next] at added
      cases added
    | ok s₁ =>
      rw [next] at added
      obtain ⟨rest, version⟩ := ih (madeOf.addModule first next) later added
      obtain ⟨_, _, rfl⟩ := addModule_eq_ok first next
      rw [List.append_assoc] at rest
      exact ⟨rest, version⟩

/-- Adding stops where what is to be added has a module or a node in common with what was. -/
theorem isTakenTwice_of_addAll (keyed : ∀ a ∈ others, a.graph.IsKeyed) {path : Path}
    (refused : s.addAll others = .error path) : IsTakenTwice (additions ++ others) path := by
  induction others generalizing s additions with
  | nil => cases refused
  | cons a others ih =>
    obtain ⟨first, later⟩ := List.forall_mem_cons.mp keyed
    rw [Snapshot.addAll, List.foldlM_cons] at refused
    cases next : s.addModule a.graph a.narrations a.external with
    | ok s₁ =>
      rw [next] at refused
      have taken := ih (madeOf.addModule first next) later refused
      rwa [List.append_assoc] at taken
    | error path' =>
      rw [next] at refused
      cases refused
      refine ⟨additions, a, others, rfl, ?_⟩
      rw [Snapshot.addModule] at next
      split at next
      next taken =>
        cases next
        obtain ⟨b, member, same⟩ := List.mem_map.mp (madeOf.mem_keys_iff.mp (SortedMap.contains_iff.mp taken))
        exact ⟨b, member, .inl ⟨same, rfl⟩⟩
      · split at next
        next n taken =>
          cases next
          have stored : s.contains n.path = true :=
            List.find?_some (p := fun n : Node => s.nodes.contains n.path) taken
          obtain ⟨b, member, old⟩ := madeOf.contains_iff.mp stored
          exact ⟨b, member, .inr ⟨old, first.contains_of_mem (List.mem_of_find?_eq_some taken)⟩⟩
        · cases next

end IsMadeOf

/-- A snapshot that is assembled from nothing is made of what was added. -/
theorem isMadeOf_addAll {library : String} {version : Version} {additions : List Addition} {s : Snapshot}
    (keyed : ∀ a ∈ additions, a.graph.IsKeyed)
    (added : addAll { library := library, version := version } additions = .ok s) :
    s.IsMadeOf additions ∧ s.version = version := (isMadeOf_nil library version).addAll keyed added

end Snapshot

/-- What is added with a module that compiled. -/
def ResolvedModule.addition (m : ResolvedModule) : Addition := ⟨m.graph, m.narrations, SortedSet.toList m.external⟩

theorem assemble_eq (library : String) (version : Version) (modules : List ResolvedModule) :
    assemble library version modules =
      Snapshot.addAll { library := library, version := version } (modules.map ResolvedModule.addition) := by
  rw [Snapshot.addAll, List.foldlM_map]
  rfl

end Deductions
