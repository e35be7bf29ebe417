import Deductions.Proofs.Losses
import Deductions.Proofs.Retag

namespace Deductions

/-- The one tag in place of all others. -/
def untag : Version → Version := fun _ => default

namespace Snapshot

def untagged (s : Snapshot) : Snapshot := s.retag untag

/-- The snapshots hold the same when version tags do not count. -/
structure IsAlike (a b : Snapshot) : Prop where
  modules : a.untagged.modules = b.untagged.modules
  nodes : a.untagged.nodes = b.untagged.nodes
  edges : ∀ e, e ∈ a.untagged.edges ↔ e ∈ b.untagged.edges
  narrations : a.untagged.narrations = b.untagged.narrations
  external : a.untagged.external = b.untagged.external

/-- Every node stands under its own path. -/
def IsKeyed (s : Snapshot) : Prop := ∀ path n, s.node? path = some n → n.path = path

end Snapshot

/-- Nodes at one path have the same content just if they are alike. -/
theorem Node.sameContent_iff {n n' : Node} (path : n.path = n'.path) :
    n.sameContent n' = true ↔ n.retag untag = n'.retag untag := by
  obtain ⟨p, v, kind, fields, children, narration, wolog⟩ := n
  obtain ⟨p', v', kind', fields', children', narration', wolog'⟩ := n'
  obtain rfl : p = p' := path
  simp only [sameContent, retag, untag, Bool.and_eq_true, beq_iff_eq, Node.mk.injEq, true_and, and_assoc]

namespace Snapshot

variable {a b : Snapshot}

theorem node?_untagged (s : Snapshot) (path : Path) :
    s.untagged.node? path = (s.node? path).map (Node.retag untag) := node?_retag

theorem untagged_nodes_eq_iff : a.untagged.nodes = b.untagged.nodes ↔
    ∀ path, (a.node? path).map (Node.retag untag) = (b.node? path).map (Node.retag untag) := by
  constructor
  · intro same path
    rw [← node?_untagged, ← node?_untagged, node?, node?, same]
  · intro same
    refine SortedMap.eq_of_find?_eq fun path => ?_
    have atPath : a.untagged.node? path = b.untagged.node? path := by
      rw [node?_untagged, node?_untagged, same path]
    exact atPath

theorem IsKeyed.retag (keyed : a.IsKeyed) (f : Version → Version) : (a.retag f).IsKeyed := by
  intro path n found
  rw [node?_retag, Option.map_eq_some_iff] at found
  obtain ⟨n, found, rfl⟩ := found
  exact keyed path n found

theorem IsKeyed.mem_values {n : Node} (keyed : a.IsKeyed) : n ∈ a.nodes.values ↔ a.node? n.path = some n := by
  rw [SortedMap.values, List.mem_map]
  constructor
  · rintro ⟨⟨path, n'⟩, entry, rfl⟩
    have found : a.node? path = some n' := SortedMap.find?_eq_some_iff.mpr entry
    rwa [keyed path n' found]
  · exact fun found => ⟨(n.path, n), SortedMap.find?_eq_some_iff.mp found, rfl⟩

theorem IsKeyed.mem_nodePaths {path : Path} (keyed : a.IsKeyed) :
    path ∈ SortedSet.toList a.nodePaths ↔ (a.node? path).isSome = true := by
  rw [nodePaths, SortedSet.mem_toList_ofList, List.mem_map, Option.isSome_iff_exists]
  constructor
  · rintro ⟨n, member, rfl⟩
    exact ⟨n, keyed.mem_values.mp member⟩
  · rintro ⟨n, found⟩
    obtain rfl := keyed path n found
    exact ⟨n, keyed.mem_values.mpr found, rfl⟩

theorem mem_edgeShapes {s : Snapshot} {shape : EdgeKind × List Path} : shape ∈ s.edgeShapes ↔
    ∃ e ∈ s.edges, e.kind = shape.1 ∧ e.endpoints.map NodeRef.path = shape.2 := by
  simp only [edgeShapes, List.mem_map, Prod.ext_iff]

theorem isExpansion_iff {e : Edge} : e.isExpansion = true ↔ e.kind = .expansion := by
  cases e <;> simp [Edge.isExpansion, Edge.kind]

/-- The shapes of the edges tell what expands what. -/
theorem expands_iff_of_edgeShapes (same : ∀ shape ∈ a.edgeShapes, shape ∈ b.edgeShapes) :
    (∀ source, a.HasExpansion source → b.HasExpansion source) ∧
      ∀ source target, a.Expands source target → b.Expands source target := by
  have expansion : ∀ e ∈ a.expansions, ∃ e' ∈ b.expansions, e'.source.path = e.source.path ∧
      e'.targets.map NodeRef.path = e.targets.map NodeRef.path := by
    intro e member
    obtain ⟨member, isExpansion⟩ := List.mem_filter.mp member
    obtain ⟨e', member', kind, ends⟩ := mem_edgeShapes.mp (same _ (List.mem_map_of_mem member))
    have isExpansion' : e'.isExpansion = true :=
      isExpansion_iff.mpr (kind.trans (isExpansion_iff.mp isExpansion))
    rw [Edge.endpoints, Edge.endpoints, List.map_cons, List.map_cons, List.cons_eq_cons] at ends
    exact ⟨e', List.mem_filter.mpr ⟨member', isExpansion'⟩, ends⟩
  constructor
  · rintro source ⟨e, member, rfl⟩
    obtain ⟨e', member', atSource, _⟩ := expansion e member
    exact ⟨e', member', atSource⟩
  · rintro source target ⟨e, member, rfl, t, atEnd, rfl⟩
    obtain ⟨e', member', atSource, targets⟩ := expansion e member
    have inside : t.path ∈ e'.targets.map NodeRef.path := targets ▸ List.mem_map_of_mem atEnd
    exact ⟨e', member', atSource, List.mem_map.mp inside⟩

theorem expansionSets_eq (same : ∀ shape, shape ∈ a.edgeShapes ↔ shape ∈ b.edgeShapes) :
    a.expansionSets = b.expansionSets := by
  obtain ⟨sources, expands⟩ := expands_iff_of_edgeShapes fun shape => (same shape).mp
  obtain ⟨sources', expands'⟩ := expands_iff_of_edgeShapes fun shape => (same shape).mpr
  refine SortedMap.eq_of_find?_eq fun source => ?_
  rw [expansionSets, expansionSets, SortedMap.find?_mapValues, SortedMap.find?_mapValues]
  have both : (a.expansionMap.find? source).isSome ↔ (b.expansionMap.find? source).isSome := by
    rw [isSome_expansionMap, isSome_expansionMap]
    exact ⟨sources source, sources' source⟩
  cases inA : a.expansionMap.find? source with
  | none => simp_all
  | some targets =>
    cases inB : b.expansionMap.find? source with
    | none => simp_all
    | some targets' =>
      refine congrArg some (SortedSet.eq_of_mem_toList fun target => ?_)
      rw [SortedSet.mem_toList_ofList, SortedSet.mem_toList_ofList, mem_expansionMap inA, mem_expansionMap inB]
      exact ⟨expands source target, expands' source target⟩

end Snapshot

theorem sameElements_iff {α : Type} [BEq α] [LawfulBEq α] {l l' : List α} :
    sameElements l l' = true ↔ ∀ a, a ∈ l ↔ a ∈ l' := by
  simp only [sameElements, Bool.and_eq_true, List.all_eq_true, List.contains_iff_mem]
  exact ⟨fun ⟨first, second⟩ a => ⟨first a, second a⟩, fun same => ⟨fun a => (same a).mp, fun a => (same a).mpr⟩⟩

namespace Snapshot

variable {a b : Snapshot}

/-- Without losses, no change is told exactly where the nodes are alike and the edges lead between the
same paths. -/
theorem change_eq_none_iff (keyed : a.IsKeyed) (keyed' : b.IsKeyed) : a.change b false = .none ↔
    a.untagged.nodes = b.untagged.nodes ∧ ∀ shape, shape ∈ a.edgeShapes ↔ shape ∈ b.edgeShapes := by
  have unchanged : a.change b false = .none ↔ (a.nodePaths = b.nodePaths ∧ a.expansionSets = b.expansionSets) ∧
      (∀ n ∈ b.nodes.values, a.hasNewContent n = false) ∧ sameElements a.edgeShapes b.edgeShapes = true := by
    rw [change, if_neg Bool.false_ne_true]
    by_cases paths : a.nodePaths = b.nodePaths <;> by_cases sets : a.expansionSets = b.expansionSets <;>
      simp [paths, sets]
  have paths : a.nodePaths = b.nodePaths ↔ ∀ path, (a.node? path).isSome = (b.node? path).isSome := by
    simp only [Bool.eq_iff_iff, ← keyed.mem_nodePaths, ← keyed'.mem_nodePaths]
    exact ⟨fun same path => same ▸ Iff.rfl, SortedSet.eq_of_mem_toList⟩
  rw [unchanged, sameElements_iff, untagged_nodes_eq_iff]
  constructor
  · rintro ⟨⟨samePaths, _⟩, contents, shapes⟩
    refine ⟨fun path => ?_, shapes⟩
    have atPath := paths.mp samePaths path
    cases inA : a.node? path with
    | none => simp_all
    | some n =>
      cases inB : b.node? path with
      | none => simp_all
      | some n' =>
        have content := contents n' (keyed'.mem_values.mpr (by rwa [keyed' path n' inB]))
        rw [hasNewContent, keyed' path n' inB, inA] at content
        have content : n.sameContent n' = true := by simpa using content
        have samePath : n.path = n'.path := (keyed path n inA).trans (keyed' path n' inB).symm
        exact congrArg some ((Node.sameContent_iff samePath).mp content)
  · rintro ⟨nodes, shapes⟩
    refine ⟨⟨paths.mpr fun path => ?_, expansionSets_eq shapes⟩, fun n' member => ?_, shapes⟩
    · have atPath := congrArg Option.isSome (nodes path)
      rwa [Option.isSome_map, Option.isSome_map] at atPath
    · have inB := keyed'.mem_values.mp member
      rw [hasNewContent]
      cases inA : a.node? n'.path with
      | none => rfl
      | some n =>
        have atPath := nodes n'.path
        rw [inA, inB] at atPath
        have content : n.sameContent n' = true :=
          (Node.sameContent_iff (keyed _ _ inA)).mpr (Option.some.inj atPath)
        simp [content]

/-- Snapshots that are alike are told to be unchanged. -/
theorem IsAlike.change_eq_none (alike : a.IsAlike b) (keyed : a.IsKeyed) (keyed' : b.IsKeyed) :
    a.change b false = .none := by
  have shapes : ∀ {a b : Snapshot}, (∀ e, e ∈ a.untagged.edges → e ∈ b.untagged.edges) →
      ∀ shape ∈ a.edgeShapes, shape ∈ b.edgeShapes := by
    intro a b edges shape member
    obtain ⟨e, member, kind, ends⟩ := mem_edgeShapes.mp member
    obtain ⟨e', member', same⟩ := List.mem_map.mp (edges (e.retag untag) (List.mem_map_of_mem member))
    refine mem_edgeShapes.mpr ⟨e', member', ?_, (Edge.paths_of_retag_eq same).trans ends⟩
    rw [← kind, ← Edge.kind_retag (f := untag) e', same, Edge.kind_retag]
  refine (change_eq_none_iff keyed keyed').mpr ⟨alike.nodes, fun shape => ⟨?_, ?_⟩⟩
  · exact shapes (fun e => (alike.edges e).mp) shape
  · exact shapes (fun e => (alike.edges e).mpr) shape

end Snapshot

end Deductions
