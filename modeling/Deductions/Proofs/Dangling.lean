import Deductions.Proofs.LossReports
import Deductions.Proofs.Snapshot.Origin

namespace Deductions

open Batch Resolution Validation

/-- The node is one of a graph of the library. -/
def ModuleLibrary.Holds (l : ModuleLibrary) (n : Node) : Prop := ∃ id g, l.get? id = some g ∧ n ∈ g.nodes.values

theorem ModuleGraph.mem_values_of_node? {g : ModuleGraph} {path : Path} {n : Node} (found : g.node? path = some n) :
    n ∈ g.nodes.values := List.mem_map_of_mem (SortedMap.find?_eq_some_iff.mp found)

/-- A name is linked to a node of its module or to one of the library. -/
theorem Resolution.mem_of_lookup {graph : ModuleGraph} {s : Surroundings} {imports : ImportTable}
    {scope name : Path} {t : Node} (found : lookup graph s imports scope name = .found t) :
    t ∈ graph.nodes.values ∨ s.library.Holds t := by
  obtain ⟨⟨path, reach⟩, _, atPlace⟩ := exists_place_of_found found
  cases reach with
  | module => exact .inl (ModuleGraph.mem_values_of_node? atPlace)
  | anywhere pin =>
    have atPlace : find? graph s.library path pin = some t := atPlace
    rw [find?] at atPlace
    split at atPlace
    next own =>
      cases atPlace
      exact .inl (ModuleGraph.mem_values_of_node? own)
    next =>
      split at atPlace
      next g owner =>
        split at atPlace
        · cases atPlace
        obtain ⟨outer, _, selected⟩ := ModuleLibrary.select_of_owner owner
        obtain ⟨version, held⟩ := ModuleLibrary.get?_of_select selected
        exact .inr ⟨_, g, held, ModuleGraph.mem_values_of_node? atPlace⟩
      · cases atPlace

theorem holds_libraryWith {library : ModuleLibrary} {outcomes : SortedMap ModuleId Outcome} {ids : List ModuleId}
    {t : Node} (holds : (libraryWith library outcomes ids).Holds t) :
    library.Holds t ∨ ∃ id m, outcomes.find? id = some (.ok m) ∧ t ∈ m.graph.nodes.values := by
  obtain ⟨id, g, held, inside⟩ := holds
  rcases ModuleLibrary.get?_foldl_insert_cases held with before | ⟨member, _⟩
  · exact .inl ⟨id, g, before, inside⟩
  · obtain ⟨id', _, compiled⟩ := List.mem_filterMap.mp member
    obtain ⟨m, found, rfl⟩ := graphOf?_eq_some_iff.mp compiled
    exact .inr ⟨id', m, found, inside⟩

/-- The node is one of the library and none of the snapshot, but the snapshot has a module around its path. -/
structure IsStranded (library : ModuleLibrary) (S : Snapshot) (r : NodeRef) : Prop where
  held : ∃ n, library.Holds n ∧ n.ref = r
  within : S.owns r.path = true
  other : ∀ n, S.node? r.path = some n → n.version ≠ r.version

section

variable {sources : List ModuleSource} {library : ModuleLibrary} {imports : ImportTable}
  {previous : Option Snapshot} {name : String} {version : Version} {S : Snapshot}
  (assembled : assemble name version (compileBatch sources library imports previous).compiled = .ok S)
include assembled

theorem stored_of_compiled {m : ResolvedModule} {t : Node}
    (compiled : m ∈ (compileBatch sources library imports previous).compiled) (inside : t ∈ m.graph.nodes.values) :
    S.node? t.path = some t :=
  (node?_of_assemble assembled).mpr ⟨m, compiled, (isForest_of_compiled compiled).keyed.mem_values_iff.mp inside⟩

section

variable {m : ResolvedModule} {s : ModuleSource} {c : Candidate} {before : List ModuleId}
  (compilation : IsCompilation sources library imports previous m s c before)
include compilation

theorem IsCompilation.stored {t : Node} (inside : t ∈ c.graph.nodes.values) : S.node? t.path = some t := by
  refine stored_of_compiled assembled compilation.mem_compiled ?_
  rw [compilation.graph]
  exact inside

theorem IsCompilation.owns {path : Path} (own : c.graph.contains path = true) : S.owns path = true := by
  obtain ⟨n, found⟩ := ModuleGraph.contains_iff.mp own
  have stored : S.node? path = some n :=
    (node?_of_assemble assembled).mpr ⟨m, compilation.mem_compiled, compilation.graph ▸ found⟩
  exact owns_of_assemble assembled (Option.isSome_iff_exists.mpr ⟨n, stored⟩)

/-- What a name leads to is a node of the snapshot or one of the library. -/
theorem IsCompilation.stored_or_held {n t : Node} (reaches : Reaches c.graph
      (surroundingsAfter sources library imports previous before) (c.imports.mergedWith imports) c.references n t) :
    S.node? t.path = some t ∨ library.Holds t := by
  obtain ⟨scope, written, _, found⟩ := reaches
  rcases mem_of_lookup found with own | holds
  · exact .inl (compilation.stored assembled own)
  · refine (holds_libraryWith holds).symm.imp_left fun ⟨id, m', found', inside⟩ => ?_
    exact stored_of_compiled assembled (BatchResult.mem_compiled.mpr ⟨id, found'⟩) inside

end

/-- An end of an edge is a node of the snapshot, or one of the library which the snapshot owns or has
recorded. -/
theorem end_of_assemble {e : Edge} (member : e ∈ S.edges) (noGhost : e.isGhost = false) {r : NodeRef}
    (atEnd : r ∈ e.endpoints) : (∃ n, S.node? r.path = some n ∧ n.version = r.version) ∨
      (∃ n, library.Holds n ∧ n.ref = r) ∧ (S.owns r.path = true ∨ S.external.contains r = true) := by
  obtain ⟨m, s, c, before, compilation, n, inside, isLink⟩ := exists_link_of_assemble assembled member
  cases isLink with
  | ghost => cases noGhost
  | link _ leaves targets =>
    rcases List.mem_cons.mp atEnd with rfl | atTarget
    · obtain ⟨a, same, rfl | ⟨reaches, own⟩⟩ := leaves
      · exact .inl ⟨a, same ▸ compilation.stored assembled (ModuleGraph.mem_nodes_of_mem_walk inside), same ▸ rfl⟩
      · rcases compilation.stored_or_held assembled reaches with stored | holds
        · exact .inl ⟨a, same ▸ stored, same ▸ rfl⟩
        · exact .inr ⟨⟨a, holds, same⟩, .inl (same ▸ compilation.owns assembled own)⟩
    · obtain ⟨t, rfl, reaches, knows⟩ := targets r atTarget
      rcases compilation.stored_or_held assembled reaches with stored | holds
      · exact .inl ⟨t, stored, rfl⟩
      refine .inr ⟨⟨t, holds, rfl⟩, knows.imp (compilation.owns assembled) fun recorded => ?_⟩
      rw [← compilation.external] at recorded
      exact external_of_assemble assembled compilation.mem_compiled recorded

/-- An end of an edge is there just if it is not stranded. -/
theorem resolves_iff_not_isStranded {e : Edge} (member : e ∈ S.edges) (noGhost : e.isGhost = false) {r : NodeRef}
    (atEnd : r ∈ e.endpoints) : S.resolves r = true ↔ ¬ IsStranded library S r := by
  have origin := end_of_assemble assembled member noGhost atEnd
  rw [Snapshot.resolves]
  cases stored : S.node? r.path with
  | some own =>
    rw [beq_iff_eq]
    constructor
    · exact fun same stranded => stranded.other own stored same
    · intro notStranded
      rcases origin with ⟨n, found, same⟩ | ⟨held, _⟩
      · cases stored.symm.trans found
        exact same
      · refine Decidable.by_contra fun different => notStranded ⟨held, ?_, ?_⟩
        · exact owns_of_assemble assembled (Option.isSome_iff_exists.mpr ⟨own, stored⟩)
        · intro n found
          cases stored.symm.trans found
          exact different
  | none =>
    rw [Bool.and_eq_true, Bool.not_eq_true']
    have none : ∀ n, S.node? r.path = some n → n.version ≠ r.version := fun n found =>
      nomatch stored.symm.trans found
    constructor
    · rintro ⟨outside, _⟩ stranded
      rw [stranded.within] at outside
      cases outside
    · intro notStranded
      rcases origin with ⟨n, found, same⟩ | ⟨held, known⟩
      · exact absurd same (none n found)
      · have outside : ¬ S.owns r.path = true := fun within => notStranded ⟨held, within, none⟩
        exact ⟨Bool.eq_false_iff.mpr outside, known.resolve_left outside⟩

end

/-- Nothing is reported as dangling just if no edge has a dangling end. -/
theorem validate_noDangling_iff {S : Snapshot} {before : Option Snapshot} {log : ChangeLog}
    {options : ValidationOptions} :
    (∀ d ∈ SortedSet.toList (validate S before log options).diagnostics, d.kind ≠ .danglingReference) ↔
      ∀ e ∈ S.edges, danglingEnds (S.lossesSince before) (log.names S.version) S e = [] := by
  have ends : (∀ e ∈ S.edges, danglingEnds (S.lossesSince before) (log.names S.version) S e = []) ↔
      firstBy (fun d : Dangling => (d.source, d.target))
        (S.edges.flatMap (danglingEnds (S.lossesSince before) (log.names S.version) S)) = [] := by
    rw [firstBy_eq_nil, List.flatMap_eq_nil_iff]
  rw [ends]
  constructor
  · intro none
    refine List.eq_nil_iff_forall_not_mem.mpr fun end' inside => ?_
    refine none ⟨.danglingReference, some end'.source, end'.message⟩ ?_ rfl
    refine SortedSet.mem_toList_ofList.mpr ((mem_findings_iff (.inr rfl)).mpr (.inr ?_))
    exact List.mem_append_right _ (List.mem_map_of_mem inside)
  · intro none d reported isDangling
    have found : d ∈ findings S before log options (S.lossesSince before) :=
      SortedSet.mem_toList_ofList.mp reported
    rcases (mem_findings_iff (.inr isDangling)).mp found with loss | reference
    · rcases List.mem_append.mp loss with retargets | targets
      · obtain ⟨r, _, rfl⟩ := List.mem_map.mp retargets
        cases isDangling
      · obtain ⟨t, _, isDiagnostic⟩ := List.mem_filterMap.mp targets
        rcases (targetDiagnostic?_cases isDiagnostic).2 with ⟨logged, _⟩ | ⟨unlogged, _⟩
        · cases isDangling.symm.trans logged
        · cases isDangling.symm.trans unlogged
    · rcases List.mem_append.mp reference with tolerated | dangling
      · obtain ⟨e, _, isDiagnostic⟩ := List.mem_filterMap.mp tolerated
        cases isDangling.symm.trans (kind_of_toleratedDiagnostic? isDiagnostic)
      · rw [none] at dangling
        cases dangling

/-- A validation takes no edge of a batch without ghosts for dangling, just if no end of an edge is
stranded: if none is a node of the library that the batch starts from, at a path inside a module of the
batch which does not have it at that version. -/
theorem validate_noDangling_iff_not_isStranded {sources : List ModuleSource} {library : ModuleLibrary}
    {imports : ImportTable} {previous : Option Snapshot} {name : String} {version : Version} {S : Snapshot}
    (noGhosts : ∀ m ∈ (compileBatch sources library imports previous).compiled, m.ghostEdges = [])
    (assembled : assemble name version (compileBatch sources library imports previous).compiled = .ok S)
    (before : Option Snapshot) (log : ChangeLog) (options : ValidationOptions) :
    (∀ d ∈ SortedSet.toList (validate S before log options).diagnostics, d.kind ≠ .danglingReference) ↔
      ∀ e ∈ S.edges, ∀ r ∈ e.endpoints, ¬ IsStranded library S r := by
  have noGhost : ∀ e ∈ S.edges, e.isGhost = false := by
    intro e member
    rw [(isMadeOf_of_assemble assembled).edges] at member
    obtain ⟨_, inside, member⟩ := List.mem_flatMap.mp member
    obtain ⟨m, compiled, rfl⟩ := List.mem_map.mp inside
    exact Bool.eq_false_iff.mpr (List.filter_eq_nil_iff.mp (noGhosts m compiled) e member)
  rw [validate_noDangling_iff]
  refine forall₂_congr fun e member => ?_
  rw [danglingEnds_eq_nil_of_not_ghost (noGhost e member)]
  exact forall₂_congr fun r atEnd => resolves_iff_not_isStranded assembled member (noGhost e member) atEnd

/-- The module with an assertion at a later version. -/
def laterSource : ModuleSource := { outerSource with version := .plain 2 0 0 }

/-- A module that expands the assertion by an import given from outside. -/
def importingSource : ModuleSource := ⟨.single "a", laterSource.version, "deduc P of T.C \x7b\x7d"⟩

def importOf (pin : Option Version) : ImportTable :=
  ImportTable.insert {} "T" ⟨outerSource.path.child "T", pin⟩

/-- The batch of the two, where the library has the first at its earlier version. -/
def importingBatch (pin : Option Version) (old : ResolvedModule) : BatchResult :=
  compileBatch [laterSource, importingSource] (ModuleLibrary.insert {} old.graph) (importOf pin) none

/-- The earlier version of the first, and what the batch of the two is collected into. -/
def collectImporting (pin : Option Version) : Option (ResolvedModule × Snapshot) := do
  let old ← (outerSource.compile {}).toOption
  let s ← (assemble "lib" laterSource.version (importingBatch pin old).compiled).toOption
  return (old, s)

theorem collectImporting_eq_some {pin : Option Version} {old : ResolvedModule} {s : Snapshot}
    (collected : collectImporting pin = some (old, s)) : outerSource.compile {} = .ok old ∧
      assemble "lib" laterSource.version (importingBatch pin old).compiled = .ok s := by
  simp only [collectImporting, bind, Option.bind_eq_some_iff, pure, Option.some.injEq, Prod.mk.injEq,
    toOption_eq_some_iff] at collected
  obtain ⟨old, compiled, s, assembled, rfl, rfl⟩ := collected
  exact ⟨compiled, assembled⟩

theorem validate_noDangling_iff_importingSource : ∃ old S, outerSource.compile {} = .ok old ∧
    (∀ m ∈ (importingBatch none old).compiled, m.ghostEdges = []) ∧
    assemble "lib" laterSource.version (importingBatch none old).compiled = .ok S ∧
    ((∀ d ∈ SortedSet.toList (validate S none {} {}).diagnostics, d.kind ≠ .danglingReference) ↔
      ∀ e ∈ S.edges, ∀ r ∈ e.endpoints, ¬ IsStranded (ModuleLibrary.insert {} old.graph) S r) := by
  have collects : (collectImporting none).any (fun (old, _) =>
      (importingBatch none old).compiled.all fun m => m.ghostEdges.isEmpty) = true := by decide +kernel
  obtain ⟨⟨old, S⟩, collected, ghostless⟩ := Option.any_eq_true _ _ |>.mp collects
  obtain ⟨compiled, assembled⟩ := collectImporting_eq_some collected
  have noGhosts : ∀ m ∈ (importingBatch none old).compiled, m.ghostEdges = [] := fun m member =>
    List.isEmpty_iff.mp (List.all_eq_true.mp ghostless m member)
  exact ⟨old, S, compiled, noGhosts, assembled,
    validate_noDangling_iff_not_isStranded noGhosts assembled none {} {}⟩

/-- A node of the library at an earlier version is recorded, and still reported as missing, once the module
is there at a later version. -/
theorem importingSource_dangles : ∃ old S, outerSource.compile {} = .ok old ∧
    (importingBatch outerSource.version old).succeeded = true ∧
    (∀ m ∈ (importingBatch outerSource.version old).compiled, m.ghostEdges = []) ∧
    assemble "lib" laterSource.version (importingBatch outerSource.version old).compiled = .ok S ∧
    ∃ d ∈ SortedSet.toList (validate S none {} {}).diagnostics, d.kind = .danglingReference := by
  have dangles : (collectImporting outerSource.version).any (fun (old, S) =>
      (importingBatch outerSource.version old).succeeded &&
        ((importingBatch outerSource.version old).compiled.all fun m => m.ghostEdges.isEmpty) &&
        (SortedSet.toList (validate S none {} {}).diagnostics).any (·.kind == .danglingReference)) = true := by
    decide +kernel
  obtain ⟨⟨old, S⟩, collected, dangles⟩ := Option.any_eq_true _ _ |>.mp dangles
  obtain ⟨compiled, assembled⟩ := collectImporting_eq_some collected
  simp only [Bool.and_eq_true, List.all_eq_true, List.isEmpty_iff, List.any_eq_true, beq_iff_eq] at dangles
  obtain ⟨⟨succeeded, noGhosts⟩, dangling⟩ := dangles
  exact ⟨old, S, compiled, succeeded, noGhosts, assembled, dangling⟩

end Deductions
