import Deductions.Proofs.Snapshot.Faithful

namespace Deductions

open Resolution

namespace Snapshot

variable {a b : Snapshot}

theorem edgeShapes_untagged (s : Snapshot) : s.untagged.edgeShapes = s.edgeShapes := by
  simp only [edgeShapes, untagged, retag, List.map_map, Function.comp_def, Edge.kind_retag, Edge.endpoints_retag,
    NodeRef.path_retag]

/-- Without tags, where an edge leads is told by paths. -/
theorem endpoints_of_mem_untagged {e : Edge} (member : e ∈ a.untagged.edges) :
    e.endpoints = (e.endpoints.map NodeRef.path).map fun path => ⟨path, default⟩ := by
  obtain ⟨e, _, rfl⟩ := List.mem_map.mp member
  rw [Edge.endpoints_retag, NodeRef.map_path_retag, List.map_map]
  rfl

theorem mem_external_untagged {r : NodeRef} : r ∈ SortedSet.toList a.untagged.external ↔
    r.version = default ∧ r.path ∈ (SortedSet.toList a.untagged.external).map NodeRef.path := by
  constructor
  · intro recorded
    obtain ⟨_, _, rfl⟩ := mem_retagAll.mp recorded
    exact ⟨rfl, List.mem_map_of_mem recorded⟩
  · rintro ⟨version, atPath⟩
    obtain ⟨_, recorded, same⟩ := List.mem_map.mp atPath
    obtain ⟨r', _, rfl⟩ := mem_retagAll.mp recorded
    obtain ⟨path, v⟩ := r
    cases version
    cases same
    exact recorded

theorem HasIn.of_eq {module path : Path} (modules : a.modules = b.modules) (nodes : a.nodes = b.nodes)
    (has : a.HasIn module path) : b.HasIn module path := by
  induction has with
  | root found member => exact .root (modules ▸ found) member
  | inner _ found member outer => exact .inner outer (by rwa [node?, ← nodes]) member

theorem areTogether_congr (modules : a.modules = b.modules) (nodes : a.nodes = b.nodes) {path path' : Path} :
    a.AreTogether path path' ↔ b.AreTogether path path' :=
  ⟨fun ⟨module, has, has'⟩ => ⟨module, has.of_eq modules nodes, has'.of_eq modules nodes⟩,
    fun ⟨module, has, has'⟩ => ⟨module, has.of_eq modules.symm nodes.symm, has'.of_eq modules.symm nodes.symm⟩⟩

namespace IsFaithful

variable (faithful : a.untagged.IsFaithful) (faithful' : b.untagged.IsFaithful)
  (modules : a.modules = b.modules) (nodes : a.untagged.nodes = b.untagged.nodes)
  (narrations : a.untagged.narrations = b.untagged.narrations)
include faithful faithful' modules nodes narrations

/-- The edges follow from where they lead, except for those of lost nodes. -/
theorem mem_edges (shapes : ∀ shape ∈ a.edgeShapes, shape ∈ b.edgeShapes)
    (ghosts : ∀ e, e.isGhost = true → e ∈ a.untagged.edges → e ∈ b.untagged.edges) {e : Edge}
    (member : e ∈ a.untagged.edges) : e ∈ b.untagged.edges := by
  -- an edge of the other snapshot that leads between the same nodes
  have alike : ∃ e' ∈ b.untagged.edges, e'.kind = e.kind ∧ e'.endpoints = e.endpoints := by
    have atShape := shapes (e.kind, e.endpoints.map NodeRef.path) <| by
      rw [← edgeShapes_untagged]
      exact mem_edgeShapes.mpr ⟨e, member, rfl, rfl⟩
    rw [← edgeShapes_untagged] at atShape
    obtain ⟨e', member', kind, ends⟩ := mem_edgeShapes.mp atShape
    refine ⟨e', member', kind, ?_⟩
    rw [endpoints_of_mem_untagged member', ends, ← endpoints_of_mem_untagged member]
  cases e with
  | ghost => exact ghosts _ rfl member
  | inference a' c owner index =>
    obtain ⟨steps, found, step, inside, same, inA, together, inC⟩ := (faithful.inferences _ _ _ _).mp member
    exact (faithful'.inferences _ _ _ _).mpr ⟨steps, narrations ▸ found, step, inside, same, inA,
      (areTogether_congr (a := a.untagged) (b := b.untagged) modules nodes).mp together, inC⟩
  | expansion source targets origin =>
    obtain ⟨e', member', kind, ends⟩ := alike
    cases e' <;> cases kind
    cases ends
    rwa [faithful.origins _ _ _ member, narrations, ← faithful'.origins _ _ _ member']
  | contradiction | alternativeCase | annotates =>
    obtain ⟨e', member', kind, ends⟩ := alike
    cases e' <;> cases kind
    cases ends
    exact member'

theorem external_eq (edges : ∀ e, e ∈ a.untagged.edges ↔ e ∈ b.untagged.edges) :
    a.untagged.external = b.untagged.external := by
  refine SortedSet.eq_of_mem_toList fun r => ?_
  have shows : a.untagged.ShowsOutside r.path ↔ b.untagged.ShowsOutside r.path := by
    rw [ShowsOutside, ShowsOutside, narrations]
    simp only [edges, areTogether_congr (a := a.untagged) (b := b.untagged) modules nodes]
  rw [mem_external_untagged, mem_external_untagged, faithful.external, faithful'.external, shows]

end IsFaithful

/-- Snapshots are alike just if no change is told and neither the modules, nor the resolved narrations,
nor the edges of lost nodes differ. -/
theorem IsFaithful.isAlike_iff (faithful : a.IsFaithful) (faithful' : b.IsFaithful) :
    a.IsAlike b ↔ a.change b false = .none ∧ a.modules = b.modules ∧
      a.untagged.narrations = b.untagged.narrations ∧
      ∀ e, e.isGhost = true → (e ∈ a.untagged.edges ↔ e ∈ b.untagged.edges) := by
  constructor
  · intro alike
    exact ⟨alike.change_eq_none faithful.keyed faithful'.keyed, alike.modules, alike.narrations,
      fun e _ => alike.edges e⟩
  · rintro ⟨unchanged, modules, narrations, ghosts⟩
    obtain ⟨nodes, shapes⟩ := (change_eq_none_iff faithful.keyed faithful'.keyed).mp unchanged
    have untagged : a.untagged.IsFaithful := faithful.retag untag
    have untagged' : b.untagged.IsFaithful := faithful'.retag untag
    have edges : ∀ e, e ∈ a.untagged.edges ↔ e ∈ b.untagged.edges := fun e =>
      ⟨untagged.mem_edges untagged' modules nodes narrations (fun shape => (shapes shape).mp)
        fun e isGhost => (ghosts e isGhost).mp,
      untagged'.mem_edges untagged modules.symm nodes.symm narrations.symm (fun shape => (shapes shape).mpr)
        fun e isGhost => (ghosts e isGhost).mpr⟩
    exact ⟨modules, nodes, edges, narrations, untagged.external_eq untagged' modules nodes narrations edges⟩

end Snapshot

/-- Two versions of a library are alike just if no change is told and neither the order of top-level
declarations, nor the resolved narrations, nor the edges of lost nodes differ.  Content, other edges and the
nodes of other libraries need no look of their own. -/
theorem assemble_isAlike_iff {sources sources' : List ModuleSource} {library library' : ModuleLibrary}
    {imports imports' : ImportTable} {previous previous' : Option Snapshot} {name name' : String}
    {version version' : Version} {S S' : Snapshot}
    (assembled : assemble name version (compileBatch sources library imports previous).compiled = .ok S)
    (assembled' : assemble name' version' (compileBatch sources' library' imports' previous').compiled = .ok S') :
    S.IsAlike S' ↔ S.change S' false = .none ∧ S.modules = S'.modules ∧
      S.untagged.narrations = S'.untagged.narrations ∧
      ∀ e, e.isGhost = true → (e ∈ S.untagged.edges ↔ e ∈ S'.untagged.edges) :=
  (isFaithful_of_assemble assembled).isAlike_iff (isFaithful_of_assemble assembled')

/-- A theorem with two assertions, and a proof of the first that gets one of them from the other, under names
that are imported. -/
def provingSources (version : Version) (imported : String) : List ModuleSource :=
  [⟨.single "b", version, "deduc T \x7b asrt X \x7b en = \"x\" \x7d asrt Y \x7b en = \"y\" \x7d \x7d"⟩,
    ⟨.single "a", version,
      "from b.T import " ++ imported ++ " deduc D of b.T.X \x7b narration = \"From P get Q.\" \x7d"⟩]

/-- First the proof gets the first assertion from the second, and then the second from the first. -/
def provingBatches : BatchResult × BatchResult :=
  (compileBatch (provingSources (.plain 1 0 0) "Y as P, X as Q") {} {} none,
    compileBatch (provingSources (.plain 1 0 1) "X as P, Y as Q") {} {} none)

def collectProving : Option (Snapshot × Snapshot) := do
  let before ← (assemble "lib" (.plain 1 0 0) provingBatches.1.compiled).toOption
  let after ← (assemble "lib" (.plain 1 0 1) provingBatches.2.compiled).toOption
  return (before, after)

theorem collectProving_eq_some {before after : Snapshot} (collected : collectProving = some (before, after)) :
    assemble "lib" (.plain 1 0 0) provingBatches.1.compiled = .ok before ∧
      assemble "lib" (.plain 1 0 1) provingBatches.2.compiled = .ok after := by
  simp only [collectProving, bind, Option.bind_eq_some_iff, pure, Option.some.injEq, Prod.mk.injEq,
    Batch.toOption_eq_some_iff] at collected
  obtain ⟨before, first, after, second, rfl, rfl⟩ := collected
  exact ⟨first, second⟩

theorem assemble_isAlike_iff_provingBatches : ∃ before after,
    assemble "lib" (.plain 1 0 0) provingBatches.1.compiled = .ok before ∧
    assemble "lib" (.plain 1 0 1) provingBatches.2.compiled = .ok after ∧
    (before.IsAlike after ↔ before.change after false = .none ∧ before.modules = after.modules ∧
      before.untagged.narrations = after.untagged.narrations ∧
      ∀ e, e.isGhost = true → (e ∈ before.untagged.edges ↔ e ∈ after.untagged.edges)) := by
  have collects : collectProving.isSome = true := by decide +kernel
  obtain ⟨⟨before, after⟩, collected⟩ := Option.isSome_iff_exists.mp collects
  obtain ⟨first, second⟩ := collectProving_eq_some collected
  exact ⟨before, after, first, second, assemble_isAlike_iff first second⟩

/-- The proof no longer delivers what it was made for, and no change is told. -/
theorem provingBatches_change : provingBatches.1.succeeded = true ∧ provingBatches.2.succeeded = true ∧
    ∃ before after, assemble "lib" (.plain 1 0 0) provingBatches.1.compiled = .ok before ∧
      assemble "lib" (.plain 1 0 1) provingBatches.2.compiled = .ok after ∧
      before.change after false = .none ∧ ¬ before.IsAlike after := by
  have collects : (provingBatches.1.succeeded && provingBatches.2.succeeded &&
      collectProving.any fun (before, after) => before.change after false = .none &&
        before.untagged.narrations ≠ after.untagged.narrations) = true := by decide +kernel
  simp only [Bool.and_eq_true, and_assoc] at collects
  obtain ⟨succeeded, succeeded', collects⟩ := collects
  obtain ⟨⟨before, after⟩, collected, changed⟩ := Option.any_eq_true _ _ |>.mp collects
  obtain ⟨first, second⟩ := collectProving_eq_some collected
  rw [Bool.and_eq_true, decide_eq_true_eq, decide_eq_true_eq] at changed
  exact ⟨succeeded, succeeded', before, after, first, second, changed.1, fun alike => changed.2 alike.narrations⟩

end Deductions
