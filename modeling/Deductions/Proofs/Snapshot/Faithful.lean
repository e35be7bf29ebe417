import Deductions.Proofs.Dangling
import Deductions.Proofs.Faithful
import Deductions.Proofs.Snapshot.Alike

namespace Deductions

open Batch Resolution

/-- Tags do not touch what a narration makes of an expansion. -/
theorem Resolution.originOf_retag {f : Version → Version} (steps : List ResolvedStep) (targets : List NodeRef) :
    originOf (steps.map (ResolvedStep.retag f)) (targets.map (NodeRef.retag f)) = originOf steps targets := by
  simp only [originOf, ResolvedStep.retag, List.any_map, Function.comp_def, NodeRef.path_retag]

namespace Snapshot

/-- The module has the node: it is a top-level declaration of it, or stands inside another node of it. -/
inductive HasIn (s : Snapshot) (module : Path) : Path → Prop
  | root {roots : List Path} {path : Path} (found : s.modules.find? module = some roots) (member : path ∈ roots) :
      HasIn s module path
  | inner {path inner : Path} {n : Node} (outer : HasIn s module path) (found : s.node? path = some n)
      (member : inner ∈ n.children) : HasIn s module inner

/-- The nodes are of one module. -/
def AreTogether (s : Snapshot) (path path' : Path) : Prop := ∃ module, s.HasIn module path ∧ s.HasIn module path'

/-- The path stands at the end of an edge that leaves a node of another module, or in the narration of a
node of another module. -/
def ShowsOutside (s : Snapshot) (path : Path) : Prop :=
  (∃ e ∈ s.edges, e.isGhost = false ∧ path ∈ e.targets.map NodeRef.path ∧ ¬ s.AreTogether e.source.path path) ∨
    ∃ owner steps, s.narrations.find? owner = some steps ∧
      (∃ step ∈ steps, path ∈ step.refs.map NodeRef.path) ∧ ¬ s.AreTogether owner path

/-- The snapshot tells the same in all places. -/
structure IsFaithful (s : Snapshot) : Prop where
  keyed : s.IsKeyed
  inferences : ∀ a c owner index, .inference a c owner index ∈ s.edges ↔ ∃ steps,
    s.narrations.find? owner = some steps ∧ ∃ step ∈ steps,
      step.index = index ∧ a ∈ step.antecedents ∧ s.AreTogether owner a.path ∧ c ∈ step.conclusions
  origins : ∀ source targets origin, .expansion source targets origin ∈ s.edges →
    origin = originOf ((s.narrations.find? source.path).getD []) targets
  external : ∀ path, path ∈ (SortedSet.toList s.external).map NodeRef.path ↔ s.ShowsOutside path

section

variable {s : Snapshot} {f : Version → Version}

theorem hasIn_retag {module path : Path} : (s.retag f).HasIn module path ↔ s.HasIn module path := by
  constructor
  · intro has
    induction has with
    | root found member => exact .root found member
    | inner _ found member outer =>
      rw [node?_retag, Option.map_eq_some_iff] at found
      obtain ⟨n, found, rfl⟩ := found
      exact .inner outer found member
  · intro has
    induction has with
    | root found member => exact .root found member
    | @inner path _ n _ found member outer =>
      have tagged : (s.retag f).node? path = some (n.retag f) := by rw [node?_retag, found, Option.map_some]
      exact .inner outer tagged member

theorem areTogether_retag {path path' : Path} :
    (s.retag f).AreTogether path path' ↔ s.AreTogether path path' := by
  simp only [AreTogether, hasIn_retag]

theorem showsOutside_retag {path : Path} : (s.retag f).ShowsOutside path ↔ s.ShowsOutside path := by
  have refs : ∀ step : ResolvedStep, (step.retag f).refs.map NodeRef.path = step.refs.map NodeRef.path := by
    intro step
    rw [ResolvedStep.refs, ResolvedStep.refs, List.map_append, List.map_append, ResolvedStep.retag,
      NodeRef.map_path_retag, NodeRef.map_path_retag]
  have edges : (s.retag f).edges = s.edges.map (Edge.retag f) := rfl
  simp only [ShowsOutside, edges, List.mem_map (f := Edge.retag f), exists_exists_and_eq_and, areTogether_retag,
    Edge.isGhost_retag, Edge.targets_retag, Edge.source_retag, NodeRef.map_path_retag, NodeRef.path_retag,
    find?_narrations_retag, Option.map_eq_some_iff, List.mem_map (f := ResolvedStep.retag f), refs]

theorem IsFaithful.retag (faithful : s.IsFaithful) (f : Version → Version) : (s.retag f).IsFaithful := by
  constructor
  case keyed => exact faithful.keyed.retag f
  case inferences =>
    intro a c owner index
    constructor
    · intro member
      obtain ⟨e, member, same⟩ := List.mem_map.mp member
      cases e <;> cases same
      obtain ⟨steps, found, step, inside, rfl, inA, together, inC⟩ := (faithful.inferences _ _ _ _).mp member
      refine ⟨steps.map (ResolvedStep.retag f), by rw [find?_narrations_retag, found, Option.map_some],
        step.retag f, List.mem_map_of_mem inside, rfl, List.mem_map_of_mem inA, areTogether_retag.mpr together,
        List.mem_map_of_mem inC⟩
    · rintro ⟨_, found, _, inside, rfl, inA, together, inC⟩
      rw [find?_narrations_retag, Option.map_eq_some_iff] at found
      obtain ⟨steps, found, rfl⟩ := found
      obtain ⟨step, member, rfl⟩ := List.mem_map.mp inside
      obtain ⟨a, memberA, rfl⟩ := List.mem_map.mp inA
      obtain ⟨c, memberC, rfl⟩ := List.mem_map.mp inC
      have made := (faithful.inferences a c owner step.index).mpr
        ⟨steps, found, step, member, rfl, memberA, areTogether_retag.mp together, memberC⟩
      exact List.mem_map_of_mem (f := Edge.retag f) made
  case origins =>
    intro source targets origin member
    obtain ⟨e, member, same⟩ := List.mem_map.mp member
    cases e <;> cases same
    rw [faithful.origins _ _ _ member, NodeRef.path_retag, find?_narrations_retag]
    cases s.narrations.find? _ with
    | none => rfl
    | some steps => exact (originOf_retag steps _).symm
  case external =>
    intro path
    rw [showsOutside_retag, ← faithful.external]
    simp only [Snapshot.retag, List.mem_map, mem_retagAll, exists_exists_and_eq_and, NodeRef.path_retag]

end

end Snapshot

namespace Snapshot.IsMadeOf

variable {s : Snapshot} {additions : List Addition} (madeOf : s.IsMadeOf additions)
  (forests : ∀ a ∈ additions, a.graph.IsForest)
include madeOf forests

theorem hasIn_iff {module path : Path} :
    s.HasIn module path ↔ ∃ a ∈ additions, a.graph.module = module ∧ a.graph.contains path = true := by
  constructor
  · intro has
    induction has with
    | root found member =>
      obtain ⟨a, inside, rfl, rfl⟩ := (madeOf.modules _ _).mp found
      exact ⟨a, inside, rfl, (forests a inside).stored none _ member⟩
    | @inner path inner n _ found member outer =>
      obtain ⟨a, inside, rfl, own⟩ := outer
      obtain ⟨b, inside', atB⟩ := (madeOf.nodes path n).mp found
      have same := madeOf.disjoint b inside' a inside path (ModuleGraph.contains_iff.mpr ⟨n, atB⟩) own
      obtain rfl := madeOf.eq_of_module inside' inside same
      have member : inner ∈ b.graph.inside (some path) := by
        rw [ModuleGraph.inside, atB]
        exact member
      exact ⟨b, inside, rfl, (forests b inside).stored (some path) inner member⟩
  · rintro ⟨a, inside, rfl, own⟩
    have forest := forests a inside
    -- from the path outwards to a top-level declaration
    induction length : path.length generalizing path with
    | zero => exact absurd (List.length_eq_zero_iff.mp length) path.nonempty
    | succ length' ih =>
      obtain ⟨place, member⟩ := forest.placed path own
      cases place with
      | none => exact .root ((madeOf.modules _ _).mpr ⟨a, inside, rfl, rfl⟩) member
      | some outer =>
        obtain ⟨name, rfl⟩ := forest.named (some outer) path member
        rw [Option.getD_some, Path.length_child, Nat.add_right_cancel_iff] at length
        have around := ih (ModuleGraph.contains_of_mem_inside member) length
        rw [ModuleGraph.inside] at member
        cases atOuter : a.graph.node? outer with
        | none =>
          rw [atOuter] at member
          cases member
        | some n =>
          rw [atOuter] at member
          exact .inner around ((madeOf.nodes outer n).mpr ⟨a, inside, atOuter⟩) member

/-- What is of one module with a node is what the graph with that node has. -/
theorem areTogether_iff {a : Addition} (member : a ∈ additions) {path : Path}
    (own : a.graph.contains path = true) {path' : Path} :
    s.AreTogether path path' ↔ a.graph.contains path' = true := by
  simp only [AreTogether, madeOf.hasIn_iff forests]
  constructor
  · rintro ⟨_, ⟨b, inB, rfl, ownB⟩, c, inC, same, ownC⟩
    obtain rfl := madeOf.eq_of_module inC inB same
    have same := madeOf.disjoint a member c inC path own ownB
    rwa [madeOf.eq_of_module member inC same]
  · exact fun own' => ⟨a.graph.module, ⟨a, member, rfl, own⟩, a, member, rfl, own'⟩

end Snapshot.IsMadeOf

/-- A compiled module tells the same in all places. -/
structure ResolvedModule.IsFaithful (m : ResolvedModule) : Prop where
  forest : m.graph.IsForest
  sources : ∀ e ∈ m.graph.edges, m.graph.contains e.source.path = true
  owners : ∀ owner steps, m.narrations.find? owner = some steps → m.graph.contains owner = true
  inferences : ∀ e, e ∈ inferencesIn m.graph.edges ↔ ∃ owner steps, m.narrations.find? owner = some steps ∧
    ∃ step ∈ steps, e ∈ inferencesOf m.graph owner step
  origins : ∀ source targets origin, .expansion source targets origin ∈ m.graph.edges →
    origin = originOf ((m.narrations.find? source.path).getD []) targets
  external : ∀ path, path ∈ (SortedSet.toList m.external).map NodeRef.path ↔ m.graph.contains path = false ∧
    ((∃ e ∈ m.graph.edges, e.isGhost = false ∧ path ∈ e.targets.map NodeRef.path) ∨
      ∃ owner steps, m.narrations.find? owner = some steps ∧ ∃ step ∈ steps, path ∈ step.refs.map NodeRef.path)

theorem Resolution.Findings.IsFaithful.isResolved {c : Candidate} {s : Surroundings} {done : List Path}
    (faithful : (findings c s).IsFaithful c.graph done) (noErrors : (findings c s).errors = []) (path : Path) :
    path ∈ (SortedSet.toList (findings c s).external).map NodeRef.path ↔
      c.graph.contains path = false ∧ (findings c s).Shows path := by
  constructor
  · intro member
    obtain ⟨r, recorded, rfl⟩ := List.mem_map.mp member
    obtain ⟨_, _, t, rfl, _, outside⟩ := Candidate.reaches_of_mem_external recorded
    exact ⟨outside, faithful.shown noErrors _ recorded⟩
  · rintro ⟨outside, ⟨e, member, noGhost, atEnd⟩ | ⟨owner, steps, found, step, inside, atStep⟩⟩
    · obtain ⟨r, atTarget, rfl⟩ := List.mem_map.mp atEnd
      obtain ⟨n, _, isLink⟩ := Candidate.isLink_of_mem_findings member
      cases isLink with
      | ghost => cases noGhost
      | link _ _ targets =>
        obtain ⟨t, rfl, _, knows⟩ := targets r atTarget
        have recorded := knows.resolve_left fun inside => by
          rw [show c.graph.contains t.path = false from outside] at inside
          cases inside
        exact List.mem_map_of_mem recorded
    · obtain ⟨r, inStep, rfl⟩ := List.mem_map.mp atStep
      have recorded := (faithful.known owner steps found step inside r inStep).resolve_left fun inside => by
        rw [outside] at inside
        cases inside
      exact List.mem_map_of_mem recorded

variable {sources : List ModuleSource} {library : ModuleLibrary} {imports : ImportTable}
  {previous : Option Snapshot}

theorem isFaithful_of_compiled {m : ResolvedModule}
    (member : m ∈ (compileBatch sources library imports previous).compiled) : m.IsFaithful := by
  obtain ⟨id, found⟩ := BatchResult.mem_compiled.mp member
  obtain ⟨s, c, before, _, compilation⟩ := exists_isCompilation found
  obtain ⟨_, _, build⟩ := s.build_eq_ok compilation.built
  obtain ⟨graph, external, narrations⟩ := Candidate.resolve_eq_ok_of_build build _ compilation.resolved
  have faithful := Candidate.isFaithful_findings build (surroundingsAfter sources library imports previous before)
  have contains : ∀ path, m.graph.contains path = c.graph.contains path := fun path => by rw [graph]; rfl
  have inferencesOf_eq : ∀ owner step, inferencesOf m.graph owner step = inferencesOf c.graph owner step :=
    fun owner step => by rw [inferencesOf, inferencesOf]; simp only [contains]
  have noErrors := (Candidate.resolve_eq_ok compilation.resolved).1
  constructor
  case forest => exact isForest_of_compiled member
  case sources => exact (isCompiledAt_of_compiled found).contains_source
  case owners =>
    intro owner steps atOwner
    rw [narrations] at atOwner
    obtain ⟨n, inside, rfl⟩ := List.mem_map.mp (faithful.owners owner steps atOwner)
    rw [contains]
    exact Candidate.contains_of_mem_walk build inside
  case inferences =>
    simp only [inferencesOf_eq, narrations]
    rw [graph]
    exact faithful.inferences
  case origins =>
    rw [graph, narrations]
    exact faithful.origins
  case external =>
    intro path
    rw [external, contains, narrations, graph]
    exact faithful.isResolved noErrors path

section

variable {name : String} {version : Version} {S : Snapshot}
  (assembled : assemble name version (compileBatch sources library imports previous).compiled = .ok S)
include assembled

/-- A node is of one module only. -/
theorem eq_of_common_of_assemble {m m' : ResolvedModule} {path : Path}
    (compiled : m ∈ (compileBatch sources library imports previous).compiled)
    (compiled' : m' ∈ (compileBatch sources library imports previous).compiled)
    (own : m.graph.contains path = true) (own' : m'.graph.contains path = true) : m = m' := by
  have madeOf := isMadeOf_of_assemble assembled
  have distinct := madeOf.distinct
  rw [List.map_map] at distinct
  refine List.inj_on_of_nodup_map distinct compiled compiled' ?_
  exact madeOf.disjoint _ (List.mem_map_of_mem compiled) _ (List.mem_map_of_mem compiled') path own own'

theorem areTogether_of_assemble {m : ResolvedModule}
    (compiled : m ∈ (compileBatch sources library imports previous).compiled) {path path' : Path}
    (own : m.graph.contains path = true) : S.AreTogether path path' ↔ m.graph.contains path' = true :=
  (isMadeOf_of_assemble assembled).areTogether_iff isForest_of_mem_additions (List.mem_map_of_mem compiled) own

/-- The narrations are those of the modules. -/
theorem find?_narrations_of_assemble {owner : Path} {steps : List ResolvedStep} :
    S.narrations.find? owner = some steps ↔
      ∃ m ∈ (compileBatch sources library imports previous).compiled, m.narrations.find? owner = some steps := by
  have narrations : S.narrations = ((compileBatch sources library imports previous).compiled.map
      ResolvedModule.narrations).foldl SortedMap.union SortedMap.empty := by
    rw [assemble_eq] at assembled
    rw [Snapshot.narrations_addAll (fun a member => (isForest_of_mem_additions a member).keyed) assembled,
      List.foldl_map, List.foldl_map]
    rfl
  rw [narrations, SortedMap.find?_foldl_union]
  · simp only [List.mem_map, exists_exists_and_eq_and]
  -- no node is of two modules, so no two have a narration of it
  intro first inFirst second inSecond steps steps' found found'
  obtain ⟨m, inside, rfl⟩ := List.mem_map.mp inFirst
  obtain ⟨m', inside', rfl⟩ := List.mem_map.mp inSecond
  obtain rfl := eq_of_common_of_assemble assembled inside inside'
    ((isFaithful_of_compiled inside).owners owner steps found)
    ((isFaithful_of_compiled inside').owners owner steps' found')
  exact Option.some.inj (found.symm.trans found')

theorem mem_edges_of_assemble {e : Edge} : e ∈ S.edges ↔
    ∃ m ∈ (compileBatch sources library imports previous).compiled, e ∈ m.graph.edges := by
  rw [(isMadeOf_of_assemble assembled).edges, List.mem_flatMap]
  simp only [List.mem_map, exists_exists_and_eq_and, ResolvedModule.addition]

theorem mem_external_of_assemble {r : NodeRef} : r ∈ SortedSet.toList S.external ↔
    ∃ m ∈ (compileBatch sources library imports previous).compiled, r ∈ SortedSet.toList m.external := by
  rw [(isMadeOf_of_assemble assembled).external]
  simp only [List.mem_map, exists_exists_and_eq_and, ResolvedModule.addition]

/-- What stands in a narration or at the end of an edge is recorded for the module just if it is not of it. -/
theorem showsOutside_of_assemble {path : Path} : S.ShowsOutside path ↔
    ∃ m ∈ (compileBatch sources library imports previous).compiled,
      path ∈ (SortedSet.toList m.external).map NodeRef.path := by
  constructor
  · rintro (⟨e, member, noGhost, atEnd, apart⟩ | ⟨owner, steps, found, shown, apart⟩)
    · obtain ⟨m, compiled, member⟩ := (mem_edges_of_assemble assembled).mp member
      have faithful := isFaithful_of_compiled compiled
      rw [areTogether_of_assemble assembled compiled (faithful.sources e member), Bool.not_eq_true] at apart
      exact ⟨m, compiled, (faithful.external path).mpr ⟨apart, .inl ⟨e, member, noGhost, atEnd⟩⟩⟩
    · obtain ⟨m, compiled, found⟩ := (find?_narrations_of_assemble assembled).mp found
      have faithful := isFaithful_of_compiled compiled
      rw [areTogether_of_assemble assembled compiled (faithful.owners owner steps found), Bool.not_eq_true] at apart
      exact ⟨m, compiled, (faithful.external path).mpr ⟨apart, .inr ⟨owner, steps, found, shown⟩⟩⟩
  · rintro ⟨m, compiled, recorded⟩
    have faithful := isFaithful_of_compiled compiled
    have apart : ∀ {path'}, m.graph.contains path' = true → ¬ S.AreTogether path' path := fun own together => by
      rw [areTogether_of_assemble assembled compiled own, ((faithful.external path).mp recorded).1] at together
      cases together
    rcases ((faithful.external path).mp recorded).2 with ⟨e, member, noGhost, atEnd⟩ | ⟨owner, steps, found, shown⟩
    · exact .inl ⟨e, (mem_edges_of_assemble assembled).mpr ⟨m, compiled, member⟩, noGhost, atEnd,
        apart (faithful.sources e member)⟩
    · exact .inr ⟨owner, steps, (find?_narrations_of_assemble assembled).mpr ⟨m, compiled, found⟩, shown,
        apart (faithful.owners owner steps found)⟩

/-- A snapshot that is assembled from a batch tells the same in all places. -/
theorem isFaithful_of_assemble : S.IsFaithful := by
  constructor
  case keyed =>
    intro path n found
    obtain ⟨m, compiled, found⟩ := (node?_of_assemble assembled).mp found
    exact (isForest_of_compiled compiled).keyed path n found
  case inferences =>
    intro a c owner index
    simp only [mem_edges_of_assemble assembled, find?_narrations_of_assemble assembled]
    constructor
    · rintro ⟨m, compiled, member⟩
      have faithful := isFaithful_of_compiled compiled
      obtain ⟨owner, steps, found, step, inside, made⟩ :=
        (faithful.inferences _).mp (mem_inferencesIn.mpr ⟨member, rfl⟩)
      obtain ⟨a, inA, made⟩ := List.mem_flatMap.mp made
      obtain ⟨c, inC, same⟩ := List.mem_map.mp made
      cases same
      obtain ⟨inA, own⟩ := List.mem_filter.mp inA
      have together := (areTogether_of_assemble assembled compiled (faithful.owners owner steps found)).mpr own
      exact ⟨steps, ⟨m, compiled, found⟩, step, inside, rfl, inA, together, inC⟩
    · rintro ⟨steps, ⟨m, compiled, found⟩, step, inside, rfl, inA, together, inC⟩
      have faithful := isFaithful_of_compiled compiled
      have own := (areTogether_of_assemble assembled compiled (faithful.owners owner steps found)).mp together
      have made : .inference a c owner step.index ∈ inferencesOf m.graph owner step :=
        List.mem_flatMap.mpr ⟨a, List.mem_filter.mpr ⟨inA, own⟩, List.mem_map_of_mem inC⟩
      have made := (faithful.inferences _).mpr ⟨owner, steps, found, step, inside, made⟩
      exact ⟨m, compiled, (mem_inferencesIn.mp made).1⟩
  case origins =>
    intro source targets origin member
    obtain ⟨m, compiled, member⟩ := (mem_edges_of_assemble assembled).mp member
    have faithful := isFaithful_of_compiled compiled
    have own : m.graph.contains source.path = true := faithful.sources _ member
    have narrations : S.narrations.find? source.path = m.narrations.find? source.path := by
      refine Option.ext fun steps => (find?_narrations_of_assemble assembled).trans
        ⟨fun ⟨m', compiled', found⟩ => ?_, fun found => ⟨m, compiled, found⟩⟩
      obtain rfl := eq_of_common_of_assemble assembled compiled compiled' own
        ((isFaithful_of_compiled compiled').owners _ steps found)
      exact found
    rw [narrations]
    exact faithful.origins source targets origin member
  case external =>
    intro path
    rw [showsOutside_of_assemble assembled]
    simp only [List.mem_map, mem_external_of_assemble assembled]
    exact ⟨fun ⟨r, ⟨m, compiled, recorded⟩, atPath⟩ => ⟨m, compiled, r, recorded, atPath⟩,
      fun ⟨m, compiled, r, recorded, atPath⟩ => ⟨r, ⟨m, compiled, recorded⟩, atPath⟩⟩

end

end Deductions
