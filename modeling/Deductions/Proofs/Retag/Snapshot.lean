import Deductions.Proofs.Losses
import Deductions.Proofs.Retag.Resolution
import Deductions.Proofs.Snapshot.Alike

namespace Deductions

variable {f : Version → Version}

theorem retagAll_foldl_insert (refs others : SortedSet NodeRef) :
    retagAll f ((SortedSet.toList others).foldl SortedSet.insert refs) =
      (SortedSet.toList (retagAll f others)).foldl SortedSet.insert (retagAll f refs) := by
  refine SortedSet.eq_of_mem_toList fun r => ?_
  simp only [mem_retagAll, SortedSet.mem_toList_foldl, or_and_right, exists_or]

theorem Snapshot.addModule_retag (s : Snapshot) (m : ResolvedModule) :
    (s.retag f).addModule (m.retag f).graph (m.retag f).narrations (SortedSet.toList (m.retag f).external) =
      (s.addModule m.graph m.narrations (SortedSet.toList m.external)).map (Snapshot.retag f) := by
  have nodes : (m.retag f).graph.nodes.values = m.graph.nodes.values.map (Node.retag f) :=
    SortedMap.values_mapValues ..
  have taken : ((m.retag f).graph.nodes.values.find? fun n => (s.retag f).nodes.contains n.path) =
      (m.graph.nodes.values.find? fun n => s.nodes.contains n.path).map (Node.retag f) := by
    rw [nodes, List.find?_map]
    refine congrArg (fun p => Option.map _ (List.find? p _)) (funext fun n => ?_)
    exact contains_retag n.path
  have stored : (m.retag f).graph.nodes.values.foldl (fun nodes n => nodes.insert n.path n) (s.retag f).nodes =
      (m.graph.nodes.values.foldl (fun nodes n => nodes.insert n.path n) s.nodes).mapValues (Node.retag f) := by
    have added := SortedMap.mapValues_foldl_insert (f := Node.retag f)
      (m.graph.nodes.values.map fun n => (n.path, n)) s.nodes
    rw [List.foldl_map, List.foldl_map] at added
    rw [nodes, List.foldl_map]
    exact added.symm
  rw [addModule, addModule, taken, stored]
  by_cases twice : s.modules.contains m.graph.module = true
  · have twice' : (s.retag f).modules.contains (m.retag f).graph.module = true := twice
    rw [if_pos twice, if_pos twice']
    rfl
  have once : ¬ (s.retag f).modules.contains (m.retag f).graph.module = true := twice
  rw [if_neg twice, if_neg once]
  cases m.graph.nodes.values.find? fun n => s.nodes.contains n.path with
  | some n => rfl
  | none =>
    refine congrArg Except.ok ?_
    rw [Snapshot.retag, Snapshot.mk.injEq]
    refine ⟨rfl, rfl, rfl, rfl, List.map_append.symm, (SortedMap.mapValues_union ..).symm,
      (retagAll_foldl_insert ..).symm⟩

theorem assemble_retag (name : String) (version : Version) (modules : List ResolvedModule) :
    assemble name (f version) (modules.map (ResolvedModule.retag f)) =
      (assemble name version modules).map (Snapshot.retag f) := by
  have general : ∀ s : Snapshot, (modules.map (ResolvedModule.retag f)).foldlM (fun (s : Snapshot) m =>
      s.addModule m.graph m.narrations (SortedSet.toList m.external)) (s.retag f) =
        (modules.foldlM (fun (s : Snapshot) m => s.addModule m.graph m.narrations (SortedSet.toList m.external)) s).map
          (Snapshot.retag f) := by
    intro s
    induction modules generalizing s with
    | nil => rfl
    | cons m modules ih =>
      rw [List.map_cons, List.foldlM_cons, List.foldlM_cons, Snapshot.addModule_retag]
      cases s.addModule m.graph m.narrations (SortedSet.toList m.external) with
      | error path => rfl
      | ok s' => exact ih s'
  exact general { library := name, version := version }

namespace Snapshot

variable {s : Snapshot}

theorem expansions_retag : (s.retag f).expansions = s.expansions.map (Edge.retag f) := by
  rw [expansions, expansions, Snapshot.retag, List.filter_map]
  simp only [Function.comp_def, Edge.isExpansion_retag]

theorem expansionPairs_retag : (s.retag f).expansionPairs = s.expansionPairs := by
  simp only [expansionPairs, expansions_retag, List.flatMap_map, Edge.targets_retag, Edge.source_retag,
    List.map_map, Function.comp_def, NodeRef.path_retag]

theorem expands_retag {source target : Path} : (s.retag f).Expands source target ↔ s.Expands source target := by
  rw [← mem_expansionPairs, ← mem_expansionPairs, expansionPairs_retag]

theorem edgeShapes_retag : (s.retag f).edgeShapes = s.edgeShapes := by
  simp only [edgeShapes, Snapshot.retag, List.map_map, Function.comp_def, Edge.kind_retag, Edge.endpoints_retag,
    NodeRef.path_retag]

/-- Other tags are no change. -/
theorem IsKeyed.change_retag (keyed : s.IsKeyed) : s.change (s.retag f) false = .none := by
  refine (change_eq_none_iff keyed (keyed.retag f)).mpr ⟨untagged_nodes_eq_iff.mpr fun path => ?_, fun shape => ?_⟩
  · rw [node?_retag, Option.map_map]
    rfl
  · rw [edgeShapes_retag]

end Snapshot

namespace Validation

variable {s : Snapshot}

theorem multipleExpansions_retag : multipleExpansions (s.retag f) = multipleExpansions s := by
  have sources : (s.retag f).expansions.map (fun e => e.source.path) = s.expansions.map fun e => e.source.path := by
    simp only [Snapshot.expansions_retag, List.map_map, Function.comp_def, Edge.source_retag, NodeRef.path_retag]
  have expanders : (s.retag f).expanders = s.expanders := by
    rw [Snapshot.expanders_eq, Snapshot.expanders_eq, Snapshot.expansionPairs_retag]
  rw [multipleExpansions, multipleExpansions, sources, expanders]

theorem concludes_retag (steps : List ResolvedStep) (path : Path) :
    concludes (steps.map (ResolvedStep.retag f)) path = concludes steps path := by
  simp only [concludes, ResolvedStep.retag, List.any_map, Function.comp_def, NodeRef.path_retag]

theorem isExpanded_retag (path : Path) : isExpanded (s.retag f) path = isExpanded s path := by
  simp only [isExpanded, Snapshot.expansions_retag, Edge.targets_retag, List.any_map, Function.comp_def,
    NodeRef.path_retag]

theorem unusedDiagnostic?_retag (n : Node) :
    unusedDiagnostic? (s.retag f) (n.retag f) = unusedDiagnostic? s n := by
  have declaration : declarationOf (s.retag f) n.path = declarationOf s n.path := rfl
  have concluded : ∀ scope : Path, ((s.retag f).narrations.entries.any fun e =>
      e.1.startsWith scope && concludes e.2 n.path) =
        s.narrations.entries.any fun e => e.1.startsWith scope && concludes e.2 n.path := by
    intro scope
    simp only [Snapshot.retag, SortedMap.mapValues, List.any_map, Function.comp_def, concludes_retag]
  rw [unusedDiagnostic?, unusedDiagnostic?, Node.kind_retag, Node.path_retag, isExpanded_retag, declaration]
  simp only [concluded]

theorem undelivered_retag (owner : Path) (steps : List ResolvedStep) :
    undelivered (s.retag f) owner (steps.map (ResolvedStep.retag f)) = undelivered s owner steps := by
  have targets : ((s.retag f).expansionsFrom owner).flatMap Edge.targets =
      ((s.expansionsFrom owner).flatMap Edge.targets).map (NodeRef.retag f) := by
    rw [Snapshot.expansionsFrom, Snapshot.expansionsFrom, Snapshot.expansions_retag, List.filter_map,
      List.flatMap_map, List.map_flatMap]
    simp only [Function.comp_def, Edge.source_retag, NodeRef.path_retag, Edge.targets_retag]
  have missing : (((s.expansionsFrom owner).flatMap Edge.targets).map (NodeRef.retag f)).filter
      (fun t => !concludes (steps.map (ResolvedStep.retag f)) t.path) =
        (((s.expansionsFrom owner).flatMap Edge.targets).filter fun t => !concludes steps t.path).map
          (NodeRef.retag f) := by
    rw [List.filter_map]
    simp only [Function.comp_def, concludes_retag, NodeRef.path_retag]
  rw [undelivered, undelivered, targets, List.isEmpty_map]
  dsimp only
  rw [missing, List.map_map]
  rfl

end Validation

end Deductions
