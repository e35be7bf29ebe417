import Deductions.Proofs.SortedMap
import Deductions.Snapshot

namespace Deductions

section

variable (f : Version → Version)

def NodeRef.retag (r : NodeRef) : NodeRef := { r with version := f r.version }

def Node.retag (n : Node) : Node := { n with version := f n.version }

def ResolvedStep.retag (step : ResolvedStep) : ResolvedStep :=
  { step with
    antecedents := step.antecedents.map (NodeRef.retag f)
    conclusions := step.conclusions.map (NodeRef.retag f) }

def Edge.retag : Edge → Edge
  | .expansion source targets origin =>
    .expansion (source.retag f) (targets.map (NodeRef.retag f)) origin
  | .contradiction source target => .contradiction (source.retag f) (target.retag f)
  | .alternativeCase source target => .alternativeCase (source.retag f) (target.retag f)
  | .annotates source target => .annotates (source.retag f) (target.retag f)
  | .inference source target owner step => .inference (source.retag f) (target.retag f) owner step
  | .ghost source target role => .ghost (source.retag f) (target.retag f) role

def retagAll (refs : SortedSet NodeRef) : SortedSet NodeRef :=
  SortedSet.ofList ((SortedSet.toList refs).map (NodeRef.retag f))

def ModuleGraph.retag (g : ModuleGraph) : ModuleGraph :=
  { g with
    version := f g.version
    nodes := g.nodes.mapValues (Node.retag f)
    edges := g.edges.map (Edge.retag f) }

def Snapshot.retag (s : Snapshot) : Snapshot :=
  { s with
    version := f s.version
    nodes := s.nodes.mapValues (Node.retag f)
    edges := s.edges.map (Edge.retag f)
    narrations := s.narrations.mapValues (List.map (ResolvedStep.retag f))
    external := retagAll f s.external }

end

section

variable {f : Version → Version}

@[simp] theorem NodeRef.path_retag (r : NodeRef) : (r.retag f).path = r.path := rfl

@[simp] theorem Node.path_retag (n : Node) : (n.retag f).path = n.path := rfl

@[simp] theorem Node.kind_retag (n : Node) : (n.retag f).kind = n.kind := rfl

@[simp] theorem Node.ref_retag (n : Node) : (n.retag f).ref = n.ref.retag f := rfl

theorem NodeRef.map_path_retag (refs : List NodeRef) :
    (refs.map (NodeRef.retag f)).map NodeRef.path = refs.map NodeRef.path := by
  rw [List.map_map]
  rfl

namespace Edge

@[simp] theorem kind_retag (e : Edge) : (e.retag f).kind = e.kind := by cases e <;> rfl

@[simp] theorem isExpansion_retag (e : Edge) : (e.retag f).isExpansion = e.isExpansion := by
  cases e <;> rfl

@[simp] theorem isGhost_retag (e : Edge) : (e.retag f).isGhost = e.isGhost := by cases e <;> rfl

@[simp] theorem source_retag (e : Edge) : (e.retag f).source = e.source.retag f := by cases e <;> rfl

@[simp] theorem targets_retag (e : Edge) : (e.retag f).targets = e.targets.map (NodeRef.retag f) := by
  cases e <;> rfl

@[simp] theorem endpoints_retag (e : Edge) :
    (e.retag f).endpoints = e.endpoints.map (NodeRef.retag f) := by
  rw [endpoints, source_retag, targets_retag]
  rfl

/-- Two edges that are alike when tags do not count end at the same paths. -/
theorem paths_of_retag_eq {e e' : Edge} {f' : Version → Version} (same : e.retag f = e'.retag f') :
    e.endpoints.map NodeRef.path = e'.endpoints.map NodeRef.path := by
  have ends : (e.retag f).endpoints.map NodeRef.path = (e'.retag f').endpoints.map NodeRef.path := by
    rw [same]
  rwa [endpoints_retag, endpoints_retag, NodeRef.map_path_retag, NodeRef.map_path_retag] at ends

end Edge

theorem mem_retagAll {refs : SortedSet NodeRef} {r : NodeRef} :
    r ∈ SortedSet.toList (retagAll f refs) ↔ ∃ r' ∈ SortedSet.toList refs, r'.retag f = r := by
  rw [retagAll, SortedSet.mem_toList_ofList, List.mem_map]

namespace Snapshot

variable {s : Snapshot}

theorem node?_retag {path : Path} : (s.retag f).node? path = (s.node? path).map (Node.retag f) :=
  SortedMap.find?_mapValues ..

theorem contains_retag (path : Path) : (s.retag f).contains path = s.contains path :=
  SortedMap.contains_mapValues ..

theorem values_nodes_retag : (s.retag f).nodes.values = s.nodes.values.map (Node.retag f) :=
  SortedMap.values_mapValues ..

theorem find?_narrations_retag {owner : Path} : (s.retag f).narrations.find? owner =
    (s.narrations.find? owner).map (List.map (ResolvedStep.retag f)) := SortedMap.find?_mapValues ..

end Snapshot

end

end Deductions
