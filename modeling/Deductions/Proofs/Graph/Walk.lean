import Deductions.Proofs.Graph.Forest
import Mathlib.Logic.Relation

namespace Deductions

namespace ModuleGraph

/-- The path `inner` is listed inside the node at `outer`. -/
def Nests (g : ModuleGraph) (outer inner : Path) : Prop := inner ∈ g.inside (some outer)

/-- The walk comes to a node that is listed inside itself, over any number of nodes. -/
def IsEndless (g : ModuleGraph) : Prop :=
  ∃ root ∈ g.roots, ∃ path, Relation.ReflTransGen g.Nests root path ∧ Relation.TransGen g.Nests path path

/-- The nodes that are met at paths and inside what is there, one path after the other and outer before
inner. Nothing bounds how deep they nest. -/
inductive Traverses (g : ModuleGraph) : List Path → List Node → Prop
  | done : Traverses g [] []
  | missing {path paths nodes} (absent : g.node? path = none) (rest : Traverses g paths nodes) :
      Traverses g (path :: paths) nodes
  | node {path n inner paths nodes} (found : g.node? path = some n) (inside : Traverses g n.children inner)
      (rest : Traverses g paths nodes) : Traverses g (path :: paths) (n :: (inner ++ nodes))

section

variable {g : ModuleGraph} {path inner : Path} {paths : List Path}

theorem nests_iff : g.Nests path inner ↔ ∃ n, g.node? path = some n ∧ inner ∈ n.children := by
  rw [Nests, inside]
  cases g.node? path with
  | none => simp
  | some n => simp

/-- What leads to something listed inside itself lists something that leads to it. -/
theorem exists_nests (leads : Relation.ReflTransGen g.Nests path inner)
    (round : Relation.TransGen g.Nests inner inner) :
    ∃ next, g.Nests path next ∧ Relation.ReflTransGen g.Nests next inner :=
  Relation.TransGen.head'_iff.mp (Relation.TransGen.trans_right leads round)

theorem traverses_of_mapM {visit : Path → Option (List Node)}
    (each : ∀ path nodes, visit path = some nodes → ∀ paths later, g.Traverses paths later →
      g.Traverses (path :: paths) (nodes ++ later))
    {trees : List (List Node)} (mapped : paths.mapM visit = some trees) : g.Traverses paths trees.flatten := by
  induction paths generalizing trees with
  | nil =>
    cases mapped
    exact .done
  | cons path paths ih =>
    rw [List.mapM_cons] at mapped
    obtain ⟨tree, visited, mapped⟩ := Option.bind_eq_some_iff.mp mapped
    obtain ⟨others, mappedLater, done⟩ := Option.bind_eq_some_iff.mp mapped
    cases done
    exact each path tree visited paths _ (ih mappedLater)

theorem traverses_of_visit (depth : Nat) : ∀ path nodes, g.visit depth path = some nodes →
    ∀ paths later, g.Traverses paths later → g.Traverses (path :: paths) (nodes ++ later) := by
  induction depth with
  | zero =>
    intro path nodes visited paths later rest
    unfold visit at visited
    split at visited
    next absent =>
      cases visited
      exact .missing absent rest
    · cases visited
  | succ depth ih =>
    intro path nodes visited paths later rest
    unfold visit at visited
    split at visited
    next absent =>
      cases visited
      exact .missing absent rest
    next n found =>
      obtain ⟨trees, mapped, done⟩ := Option.bind_eq_some_iff.mp visited
      cases done
      exact .node found (traverses_of_mapM ih mapped) rest

/-- No path that is traversed leads to something listed inside itself. -/
theorem Traverses.not_round {nodes : List Node} (traverses : g.Traverses paths nodes) :
    ∀ path ∈ paths, ∀ inner, Relation.ReflTransGen g.Nests path inner →
      ¬ Relation.TransGen g.Nests inner inner := by
  induction traverses with
  | done => exact nofun
  | missing absent rest ih =>
    refine List.forall_mem_cons.mpr ⟨fun inner leads round => ?_, ih⟩
    obtain ⟨next, nests, _⟩ := exists_nests leads round
    obtain ⟨n, found, _⟩ := nests_iff.mp nests
    cases absent.symm.trans found
  | node found inside rest ihInside ih =>
    refine List.forall_mem_cons.mpr ⟨fun inner leads round => ?_, ih⟩
    obtain ⟨next, nests, leads⟩ := exists_nests leads round
    obtain ⟨n, found', member⟩ := nests_iff.mp nests
    cases found.symm.trans found'
    exact ihInside next member inner leads round

theorem exists_mapM {α β : Type} {f : α → Option β} {l : List α} (each : ∀ a ∈ l, ∃ b, f a = some b) :
    ∃ l', l.mapM f = some l' := by
  induction l with
  | nil => exact ⟨[], rfl⟩
  | cons a l ih =>
    obtain ⟨⟨b, first⟩, later⟩ := List.forall_mem_cons.mp each
    obtain ⟨l', mapped⟩ := ih later
    exact ⟨b :: l', by simp [List.mapM_cons, first, mapped]⟩

/-- A bound is enough if it counts all nodes that the path leads to, none of which is listed inside
itself: with each step inwards one of them is left behind. -/
theorem exists_visit {depth : Nat} (within : List Path)
    (reached : ∀ inner, g.contains inner = true → Relation.ReflTransGen g.Nests path inner → inner ∈ within)
    (straight : ∀ inner, Relation.ReflTransGen g.Nests path inner → ¬ Relation.TransGen g.Nests inner inner)
    (enough : within.length ≤ depth) : ∃ nodes, g.visit depth path = some nodes := by
  induction depth generalizing path within with
  | zero =>
    cases found : g.node? path with
    | none => exact ⟨[], by rw [visit, found]⟩
    | some n =>
      have here := reached path (contains_iff.mpr ⟨n, found⟩) .refl
      rw [List.length_eq_zero_iff.mp (Nat.le_zero.mp enough)] at here
      cases here
  | succ depth ih =>
    cases found : g.node? path with
    | none => exact ⟨[], by rw [visit, found]⟩
    | some n =>
      have here := reached path (contains_iff.mpr ⟨n, found⟩) .refl
      have each : ∀ next ∈ n.children, ∃ nodes, g.visit depth next = some nodes := by
        intro next member
        have nests : g.Nests path next := nests_iff.mpr ⟨n, found, member⟩
        refine ih (within.erase path) (fun inner stored leads => ?_)
          (fun inner leads => straight inner (.head nests leads)) ?_
        · have other : inner ≠ path := by
            rintro rfl
            exact straight inner .refl (.head' nests leads)
          exact (List.mem_erase_of_ne other).mpr (reached inner stored (.head nests leads))
        · rw [List.length_erase_of_mem here]
          omega
      obtain ⟨trees, mapped⟩ := exists_mapM each
      exact ⟨n :: trees.flatten, by rw [visit, found]; simp [mapped]⟩

theorem Traverses.eq {nodes nodes' : List Node} (traverses : g.Traverses paths nodes)
    (traverses' : g.Traverses paths nodes') : nodes = nodes' := by
  induction traverses generalizing nodes' with
  | done =>
    cases traverses'
    rfl
  | missing absent rest ih =>
    cases traverses' with
    | missing _ rest' => exact ih rest'
    | node found => cases absent.symm.trans found
  | node found inside rest ihInside ih =>
    cases traverses' with
    | missing absent => cases found.symm.trans absent
    | node found' inside' rest' =>
      cases found.symm.trans found'
      rw [ihInside inside', ih rest']

end

section

variable {g : ModuleGraph}

/-- The walk ends unless it comes to a node that is listed inside itself. -/
theorem exists_walk (ends : ¬ g.IsEndless) : ∃ nodes, g.walk = some nodes := by
  have each : ∀ root ∈ g.roots, ∃ nodes, g.visit g.nodes.size root = some nodes := by
    intro root member
    refine exists_visit g.nodes.keys (fun inner stored _ => SortedMap.contains_iff.mp stored)
      (fun inner leads round => ends ⟨root, member, inner, leads, round⟩) ?_
    rw [SortedMap.keys, SortedMap.size, List.length_map]
  obtain ⟨trees, mapped⟩ := exists_mapM each
  exact ⟨trees.flatten, by simp [walk, mapped]⟩

theorem traverses_of_walk {nodes : List Node} (walked : g.walk = some nodes) : g.Traverses g.roots nodes := by
  obtain ⟨trees, mapped, done⟩ := Option.bind_eq_some_iff.mp walked
  cases done
  exact traverses_of_mapM (traverses_of_visit _) mapped

theorem Traverses.not_isEndless {nodes : List Node} (traverses : g.Traverses g.roots nodes) : ¬ g.IsEndless := by
  rintro ⟨root, member, inner, leads, round⟩
  exact traverses.not_round root member inner leads round

/-- The bound on the walk keeps it from nothing. -/
theorem walk_eq_some_iff {nodes : List Node} : g.walk = some nodes ↔ g.Traverses g.roots nodes := by
  refine ⟨traverses_of_walk, fun traverses => ?_⟩
  obtain ⟨nodes', walked⟩ := exists_walk traverses.not_isEndless
  rw [walked, traverses.eq (traverses_of_walk walked)]

theorem exists_traverses_iff : (∃ nodes, g.Traverses g.roots nodes) ↔ ¬ g.IsEndless := by
  constructor
  · rintro ⟨nodes, traverses⟩
    exact traverses.not_isEndless
  · intro ends
    obtain ⟨nodes, walked⟩ := exists_walk ends
    exact ⟨nodes, traverses_of_walk walked⟩

theorem isSome_validate : g.validate.isSome = g.walk.isSome := by
  rw [validate]
  cases g.walk <;> rfl

end

/-- The walk through a graph of stored parts and the check of it end exactly when the walk does not come to
a node that is listed inside itself. -/
theorem ofParts_ends_iff (module : Path) (version : Version) (nodes : List Node) (roots : List Path)
    (edges : List Edge) :
    let g := ofParts module version nodes roots edges
    ((∃ met, g.Traverses roots met) ↔ ¬ g.IsEndless) ∧
      (∀ met, g.walk = some met ↔ g.Traverses roots met) ∧
      (g.validate.isSome = true ↔ ¬ g.IsEndless) := by
  intro g
  refine ⟨exists_traverses_iff, fun met => walk_eq_some_iff, ?_⟩
  rw [isSome_validate, Option.isSome_iff_exists]
  simp only [walk_eq_some_iff]
  exact exists_traverses_iff

/-- The graph of a deduction `m.T` that is listed inside itself. -/
def roundParts : ModuleGraph :=
  let path := (Path.single "m").child "T"
  ofParts (.single "m") (.plain 1 0 0) [{ path, version := .plain 1 0 0, kind := .deduction, children := [path] }]
    [path] []

theorem roundParts_endless : roundParts.walk = none ∧ roundParts.validate = none ∧
    ¬ ∃ met, roundParts.Traverses roundParts.roots met := by
  have endless : roundParts.walk = none := by decide +kernel
  refine ⟨endless, by decide +kernel, ?_⟩
  rintro ⟨met, traverses⟩
  cases endless.symm.trans (walk_eq_some_iff.mpr traverses)

end ModuleGraph

end Deductions
