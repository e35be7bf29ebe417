import Deductions.Proofs.Graph.WellFormed
import Deductions.Proofs.Snapshot.Assembly
import Mathlib.Data.List.Induction

namespace Deductions

/-- Of the modules, `m` is the longest that is a proper beginning of the path. -/
def IsInnermost (modules : List Path) (path m : Path) : Prop :=
  m ∈ modules ∧ (path.strip? m).isSome = true ∧
    ∀ m' ∈ modules, (path.strip? m').isSome = true → m'.length ≤ m.length

theorem IsInnermost.unique {modules : List Path} {path m m' : Path} (first : IsInnermost modules path m)
    (second : IsInnermost modules path m') : m = m' := by
  obtain ⟨member, around, longest⟩ := first
  obtain ⟨member', around', longest'⟩ := second
  have begins := (Path.isSome_strip?_iff.mp around).1
  have begins' := (Path.isSome_strip?_iff.mp around').1
  have same : m.length = m'.length := Nat.le_antisymm (longest' m member around) (longest m' member' around')
  exact Path.eq_of_startsWith_of_length begins begins' same

theorem IsInnermost.congr {modules modules' : List Path} (same : ∀ m, m ∈ modules ↔ m ∈ modules') {path m : Path} :
    IsInnermost modules path m ↔ IsInnermost modules' path m := by
  simp only [IsInnermost, same]

namespace Snapshot

/-- The better of the two modules that `path` may lie in. -/
def closer (path : Path) (best : Option Path) (m : Path) : Option Path :=
  if (path.strip? m).isSome && (best.map Path.length).getD 0 ≤ m.length then some m else best

theorem foldl_closer (path : Path) (modules : List Path) :
    (∀ m, modules.foldl (closer path) none = some m → IsInnermost modules path m) ∧
      (modules.foldl (closer path) none = none → ∀ m ∈ modules, (path.strip? m).isSome = false) := by
  induction modules using List.reverseRecOn with
  | nil => exact ⟨fun m found => (nomatch found), fun _ m member => (nomatch member)⟩
  | append_singleton modules m ih =>
    obtain ⟨innermost, none⟩ := ih
    rw [List.foldl_append, List.foldl_cons, List.foldl_nil, closer]
    split
    next better =>
      rw [Bool.and_eq_true, decide_eq_true_eq] at better
      obtain ⟨around, notShorter⟩ := better
      refine ⟨?_, fun found => nomatch found⟩
      rintro _ ⟨⟩
      refine ⟨List.mem_append_right _ List.mem_cons_self, around, fun m' member around' => ?_⟩
      rcases List.mem_append.mp member with old | new
      · cases best : modules.foldl (closer path) Option.none with
        | none =>
          rw [none best m' old] at around'
          cases around'
        | some b =>
          rw [best] at notShorter
          exact ((innermost b best).2.2 m' old around').trans notShorter
      · rw [List.mem_singleton.mp new]
    next worse =>
      rw [Bool.and_eq_true, decide_eq_true_eq, not_and, Nat.not_le] at worse
      constructor
      · intro b best
        obtain ⟨member, around, longest⟩ := innermost b best
        refine ⟨List.mem_append_left _ member, around, fun m' member' around' => ?_⟩
        rcases List.mem_append.mp member' with old | new
        · exact longest m' old around'
        · rw [List.mem_singleton.mp new] at around' ⊢
          have shorter := worse around'
          rw [best] at shorter
          exact Nat.le_of_lt shorter
      · intro best m' member
        rcases List.mem_append.mp member with old | new
        · exact none best m' old
        · rw [List.mem_singleton.mp new]
          refine Bool.eq_false_iff.mpr fun around => ?_
          have shorter := worse around
          rw [best] at shorter
          exact Nat.not_lt_zero _ shorter

theorem moduleOf_eq_some_iff {s : Snapshot} {path m : Path} :
    s.moduleOf path = some m ↔ IsInnermost s.modules.keys path m := by
  have fold : s.moduleOf path = s.modules.keys.foldl (closer path) none := rfl
  obtain ⟨innermost, none⟩ := foldl_closer path s.modules.keys
  rw [fold]
  refine ⟨innermost m, fun isInnermost => ?_⟩
  cases best : s.modules.keys.foldl (closer path) Option.none with
  | none =>
    have outside := none best m isInnermost.1
    rw [isInnermost.2.1] at outside
    cases outside
  | some b => rw [(innermost b best).unique isInnermost]

namespace IsMadeOf

variable {s : Snapshot} {additions : List Addition} {a b : Addition} {version : Version}
  (madeOf : s.IsMadeOf additions) (atVersion : s.version = version)
  (compiled : ∀ b ∈ additions, b.graph.IsCompiledAt version)
include madeOf compiled

theorem mem_values_iff {n : Node} : n ∈ s.nodes.values ↔ ∃ b ∈ additions, b.graph.node? n.path = some n := by
  rw [← madeOf.nodes, SortedMap.values, List.mem_map]
  constructor
  · rintro ⟨⟨path, n⟩, entry, rfl⟩
    have found := SortedMap.find?_eq_some_iff.mpr entry
    obtain ⟨b, member, foundB⟩ := (madeOf.nodes path n).mp found
    rw [(compiled b member).isForest.keyed path n foundB]
    exact found
  · exact fun found => ⟨(n.path, n), SortedMap.find?_eq_some_iff.mp found, rfl⟩

/-- The nodes that the snapshot takes for those of a module. -/
theorem mem_nodesOf_iff {module : Path} {n : Node} :
    n ∈ s.nodes.values.filter (fun n => s.moduleOf n.path == some module) ↔
      (∃ b ∈ additions, b.graph.node? n.path = some n) ∧
        IsInnermost (additions.map fun a => a.graph.module) n.path module := by
  rw [List.mem_filter, beq_iff_eq, moduleOf_eq_some_iff, IsInnermost.congr fun _ => madeOf.mem_keys_iff,
    madeOf.mem_values_iff compiled]

theorem find?_nodesOf {module path : Path} {n : Node} :
    (SortedMap.ofList ((s.nodes.values.filter (fun n => s.moduleOf n.path == some module)).map
      fun n => (n.path, n))).find? path = some n ↔
      (∃ b ∈ additions, b.graph.node? path = some n) ∧
        IsInnermost (additions.map fun a => a.graph.module) path module := by
  have distinct : (((s.nodes.values.filter (fun n => s.moduleOf n.path == some module)).map
      fun n => (n.path, n)).map Prod.fst).Nodup := by
    have paths : s.nodes.values.map Node.path = s.nodes.keys := by
      rw [SortedMap.values, SortedMap.keys, List.map_map]
      refine List.map_congr_left fun e entry => ?_
      obtain ⟨b, member, found⟩ := (madeOf.nodes e.1 e.2).mp (SortedMap.find?_eq_some_iff.mpr entry)
      exact (compiled b member).isForest.keyed e.1 e.2 found
    rw [List.map_map]
    exact (paths ▸ s.nodes.nodup_keys).sublist (List.filter_sublist.map _)
  rw [SortedMap.find?_ofList_eq_some_iff distinct, List.mem_map]
  constructor
  · rintro ⟨n, member, same⟩
    cases same
    exact (madeOf.mem_nodesOf_iff compiled).mp member
  · rintro ⟨⟨b, member, found⟩, innermost⟩
    obtain rfl := (compiled b member).isForest.keyed path n found
    exact ⟨n, (madeOf.mem_nodesOf_iff compiled).mpr ⟨⟨b, member, found⟩, innermost⟩, rfl⟩

end IsMadeOf

section

variable {library : String} {version : Version} {additions : List Addition} {s : Snapshot} {a : Addition}
  (compiled : ∀ a ∈ additions, a.graph.IsCompiledAt version)
  (added : addAll { library := library, version := version } additions = .ok s)
include compiled added

theorem isMadeOf_of_compiled : s.IsMadeOf additions ∧ s.version = version :=
  isMadeOf_addAll (fun a member => (compiled a member).isForest.keyed) added

/-- The nodes that the snapshot takes for those of a module are its own, if it is the innermost around these
and no others. -/
theorem nodesOf_eq (member : a ∈ additions) (own : ∀ b ∈ additions, ∀ path, b.graph.contains path = true →
      (IsInnermost (additions.map fun a => a.graph.module) path a.graph.module ↔
        b.graph.module = a.graph.module)) :
    SortedMap.ofList ((s.nodes.values.filter fun n => s.moduleOf n.path == some a.graph.module).map
      fun n => (n.path, n)) = a.graph.nodes := by
  obtain ⟨madeOf, _⟩ := isMadeOf_of_compiled compiled added
  refine SortedMap.eq_of_find?_eq fun path => Option.ext fun n => ?_
  rw [madeOf.find?_nodesOf compiled]
  constructor
  · rintro ⟨⟨b, inB, found⟩, innermost⟩
    obtain rfl := madeOf.eq_of_module inB member
      ((own b inB path (ModuleGraph.contains_iff.mpr ⟨n, found⟩)).mp innermost)
    exact found
  · intro found
    exact ⟨⟨a, member, found⟩, (own a member path (ModuleGraph.contains_iff.mpr ⟨n, found⟩)).mpr rfl⟩

/-- The edges that the snapshot takes for those of a module are its own, if the nodes are. -/
theorem edgesOf_eq (member : a ∈ additions) (own : ∀ b ∈ additions, ∀ path, b.graph.contains path = true →
      (IsInnermost (additions.map fun a => a.graph.module) path a.graph.module ↔
        b.graph.module = a.graph.module)) :
    s.edges.filter (fun e => s.moduleOf e.source.path == some a.graph.module) = a.graph.edges := by
  obtain ⟨madeOf, _⟩ := isMadeOf_of_compiled compiled added
  have taken : ∀ b ∈ additions, ∀ e ∈ b.graph.edges,
      ((s.moduleOf e.source.path == some a.graph.module) = true ↔ b.graph.module = a.graph.module) := by
    intro b inB e inside
    rw [beq_iff_eq, moduleOf_eq_some_iff, IsInnermost.congr fun _ => madeOf.mem_keys_iff]
    exact own b inB e.source.path ((compiled b inB).contains_source e inside)
  obtain ⟨before, after, split⟩ := List.append_of_mem member
  have distinct : (additions.map fun a => a.graph.module).Nodup := madeOf.distinct
  rw [split, List.map_append, List.map_cons, List.nodup_append, List.nodup_cons] at distinct
  obtain ⟨_, ⟨notAfter, _⟩, notBefore⟩ := distinct
  -- no other module has an edge that counts
  have none : ∀ others : List Addition, (∀ b ∈ others, b ∈ additions ∧ b.graph.module ≠ a.graph.module) →
      others.flatMap (fun b => b.graph.edges.filter fun e => s.moduleOf e.source.path == some a.graph.module) =
        [] := fun others other => List.flatMap_eq_nil_iff.mpr fun b inB => List.filter_eq_nil_iff.mpr
    fun e inside counts => (other b inB).2 ((taken b (other b inB).1 e inside).mp counts)
  have first : ∀ b ∈ before, b ∈ additions ∧ b.graph.module ≠ a.graph.module := fun b inB =>
    ⟨split ▸ List.mem_append_left _ inB, notBefore _ (List.mem_map_of_mem inB) _ List.mem_cons_self⟩
  have last : ∀ b ∈ after, b ∈ additions ∧ b.graph.module ≠ a.graph.module := fun b inB =>
    ⟨split ▸ List.mem_append_right _ (List.mem_cons_of_mem _ inB),
      fun same => notAfter (same ▸ List.mem_map_of_mem inB)⟩
  have all : a.graph.edges.filter (fun e => s.moduleOf e.source.path == some a.graph.module) = a.graph.edges :=
    List.filter_eq_self.mpr fun e inside => (taken a member e inside).mpr rfl
  rw [madeOf.edges, List.filter_flatMap, split, List.flatMap_append, List.flatMap_cons, none before first,
    none after last, all, List.nil_append, List.append_nil]

/-- A snapshot gives back the graph of a module just if the innermost module around each of its nodes is
this module, and around no node of another. -/
theorem restores_iff (member : a ∈ additions) : s.moduleGraph a.graph.module = some a.graph ↔
    ∀ b ∈ additions, ∀ n ∈ b.graph.nodes.values,
      (IsInnermost (additions.map fun a => a.graph.module) n.path a.graph.module ↔
        b.graph.module = a.graph.module) := by
  obtain ⟨madeOf, atVersion⟩ := isMadeOf_of_compiled compiled added
  have keyed : ∀ b ∈ additions, b.graph.IsKeyed := fun b inB => (compiled b inB).isForest.keyed
  have roots : s.modules.find? a.graph.module = some a.graph.roots :=
    (madeOf.modules _ _).mpr ⟨a, member, rfl, rfl⟩
  rw [moduleGraph, roots, Option.map_some, Option.some.injEq]
  constructor
  · intro restored b inB n inside
    have nodes : ∀ path n, a.graph.node? path = some n ↔ (∃ b ∈ additions, b.graph.node? path = some n) ∧
        IsInnermost (additions.map fun a => a.graph.module) path a.graph.module := by
      intro path n
      rw [← madeOf.find?_nodesOf compiled, ModuleGraph.node?, ← congrArg ModuleGraph.nodes restored]
      rfl
    have found := (keyed b inB).mem_values_iff.mp inside
    constructor
    · intro innermost
      have atA := (nodes n.path n).mpr ⟨⟨b, inB, found⟩, innermost⟩
      exact madeOf.disjoint b inB a member n.path (ModuleGraph.contains_iff.mpr ⟨n, found⟩)
        (ModuleGraph.contains_iff.mpr ⟨n, atA⟩)
    · intro same
      obtain rfl := madeOf.eq_of_module inB member same
      exact ((nodes n.path n).mp found).2
  · intro own
    have own : ∀ b ∈ additions, ∀ path, b.graph.contains path = true →
        (IsInnermost (additions.map fun a => a.graph.module) path a.graph.module ↔
          b.graph.module = a.graph.module) := by
      intro b inB path stored
      obtain ⟨n, found⟩ := ModuleGraph.contains_iff.mp stored
      obtain rfl := keyed b inB path n found
      exact own b inB n ((keyed b inB).mem_values_iff.mpr found)
    have sameVersion : s.version = a.graph.version := by
      rw [atVersion, (compiled a member).version_eq]
    rw [ModuleGraph.ofParts, nodesOf_eq compiled added member own, edgesOf_eq compiled added member own, sameVersion]

/-- A snapshot gives back all its modules just if no node of one lies in a longer one. -/
theorem restores_all_iff : (∀ a ∈ additions, s.moduleGraph a.graph.module = some a.graph) ↔
    ∀ a ∈ additions, ∀ n ∈ a.graph.nodes.values, ∀ b ∈ additions,
      (n.path.strip? b.graph.module).isSome = true → b.graph.module.length ≤ a.graph.module.length := by
  have innermost : ∀ a ∈ additions, ∀ n ∈ a.graph.nodes.values,
      (IsInnermost (additions.map fun a => a.graph.module) n.path a.graph.module ↔
        ∀ b ∈ additions, (n.path.strip? b.graph.module).isSome = true →
          b.graph.module.length ≤ a.graph.module.length) := by
    intro a member n inside
    have forest := (compiled a member).isForest
    have around := forest.within n.path (forest.keyed.contains_of_mem inside)
    rw [IsInnermost, and_iff_right (List.mem_map_of_mem member), and_iff_right around]
    simp only [List.mem_map, forall_exists_index, and_imp, forall_apply_eq_imp_iff₂]
  constructor
  · intro restored a member n inside
    have own := (restores_iff compiled added member).mp (restored a member)
    exact (innermost a member n inside).mp ((own a member n inside).mpr rfl)
  · intro none a member
    refine (restores_iff compiled added member).mpr fun b inB n inside => ?_
    have ofB := (innermost b inB n inside).mpr (none b inB n inside)
    exact ⟨fun ofA => ofB.unique ofA, fun same => same ▸ ofB⟩

/-- Which modules a snapshot gives back as they were added: those around whose nodes they are the innermost,
and that are innermost around no node of another; and all of them, if no node of one lies in a longer one. -/
theorem moduleGraph_eq_iff :
    (∀ a ∈ additions, s.moduleGraph a.graph.module = some a.graph ↔
      ∀ b ∈ additions, ∀ n ∈ b.graph.nodes.values,
        (IsInnermost (additions.map fun a => a.graph.module) n.path a.graph.module ↔
          b.graph.module = a.graph.module)) ∧
    ((∀ a ∈ additions, s.moduleGraph a.graph.module = some a.graph) ↔
      ∀ a ∈ additions, ∀ n ∈ a.graph.nodes.values, ∀ b ∈ additions,
        (n.path.strip? b.graph.module).isSome = true → b.graph.module.length ≤ a.graph.module.length) :=
  ⟨fun _ => restores_iff compiled added, restores_all_iff compiled added⟩

end

end Snapshot

/-- A module that lies where a declaration of the outer one is. -/
def takingSource : ModuleSource := ⟨outerSource.path.child "T", .plain 1 0 0, "deduc D \x7b\x7d"⟩

/-- The snapshot of two modules, if they compile by themselves. -/
def snapshotOf (first second : ModuleSource) : Option (ResolvedModule × ResolvedModule × Snapshot) := do
  let m ← (first.compile {}).toOption
  let m' ← (second.compile {}).toOption
  let s ← (Snapshot.addAll { library := "s", version := first.version } [m.addition, m'.addition]).toOption
  return (m, m', s)

theorem snapshotOf_eq_some {first second : ModuleSource} {m m' : ResolvedModule} {s : Snapshot}
    (assembled : snapshotOf first second = some (m, m', s)) :
    first.compile {} = .ok m ∧ second.compile {} = .ok m' ∧
      Snapshot.addAll { library := "s", version := first.version } [m.addition, m'.addition] = .ok s := by
  simp only [snapshotOf, bind, Option.bind_eq_some_iff, pure, Option.some.injEq, Prod.mk.injEq,
    Batch.toOption_eq_some_iff] at assembled
  obtain ⟨m, compiled, m', compiled', s, added, rfl, rfl, rfl⟩ := assembled
  exact ⟨compiled, compiled', added⟩

theorem Snapshot.moduleGraph_eq_iff_outerSource : ∃ m m' s, outerSource.compile {} = .ok m ∧
    selfSource.compile {} = .ok m' ∧
    addAll { library := "s", version := outerSource.version } [m.addition, m'.addition] = .ok s ∧
    (∀ a ∈ [m.addition, m'.addition], s.moduleGraph a.graph.module = some a.graph ↔
      ∀ b ∈ [m.addition, m'.addition], ∀ n ∈ b.graph.nodes.values,
        (IsInnermost ([m.addition, m'.addition].map fun a => a.graph.module) n.path a.graph.module ↔
          b.graph.module = a.graph.module)) ∧
    ((∀ a ∈ [m.addition, m'.addition], s.moduleGraph a.graph.module = some a.graph) ↔
      ∀ a ∈ [m.addition, m'.addition], ∀ n ∈ a.graph.nodes.values, ∀ b ∈ [m.addition, m'.addition],
        (n.path.strip? b.graph.module).isSome = true → b.graph.module.length ≤ a.graph.module.length) := by
  have assembles : (snapshotOf outerSource selfSource).isSome = true := by decide +kernel
  obtain ⟨⟨m, m', s⟩, assembled⟩ := Option.isSome_iff_exists.mp assembles
  obtain ⟨compiled, compiled', added⟩ := snapshotOf_eq_some assembled
  refine ⟨m, m', s, compiled, compiled', added, moduleGraph_eq_iff ?_ added⟩
  intro b member
  rcases List.mem_cons.mp member with rfl | member
  · exact ⟨outerSource, rfl, {}, m, compiled, rfl⟩
  · rw [List.mem_singleton.mp member]
    exact ⟨selfSource, rfl, {}, m', compiled', rfl⟩

/-- A module that lies inside a declaration of another takes over the nodes inside this declaration, so
that neither is given back as it was. -/
theorem takingSource_takes : ∃ m m' s, outerSource.compile {} = .ok m ∧ takingSource.compile {} = .ok m' ∧
    Snapshot.addAll { library := "s", version := outerSource.version } [m.addition, m'.addition] = .ok s ∧
    s.moduleGraph m.graph.module ≠ some m.graph ∧ s.moduleGraph m'.graph.module ≠ some m'.graph := by
  have taken : (snapshotOf outerSource takingSource).all (fun (m, m', s) =>
      s.moduleGraph m.graph.module != some m.graph && s.moduleGraph m'.graph.module != some m'.graph) &&
      (snapshotOf outerSource takingSource).isSome := by decide +kernel
  rw [Bool.and_eq_true] at taken
  obtain ⟨⟨m, m', s⟩, assembled⟩ := Option.isSome_iff_exists.mp taken.2
  obtain ⟨compiled, compiled', added⟩ := snapshotOf_eq_some assembled
  rw [assembled] at taken
  simp only [Option.all_some, Bool.and_eq_true, bne_iff_ne] at taken
  exact ⟨m, m', s, compiled, compiled', added, taken.1⟩

end Deductions
