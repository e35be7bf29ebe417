import Deductions.Library
import Deductions.Proofs.Path
import Deductions.Proofs.SortedMap

namespace Deductions

namespace ModuleLibrary

theorem find?_modules_insert_of_ne (l : ModuleLibrary) {g : ModuleGraph} {path : Path}
    (other : path ≠ g.module) : (l.insert g).modules.find? path = l.modules.find? path :=
  SortedMap.find?_insert_of_ne l.modules _ other

theorem get?_insert_self (l : ModuleLibrary) (g : ModuleGraph) : (l.insert g).get? g.id = some g := by
  simp [get?, insert, ModuleGraph.id]

theorem get?_insert_of_ne (l : ModuleLibrary) {g : ModuleGraph} {id : ModuleId} (other : id ≠ g.id) :
    (l.insert g).get? id = l.get? id := by
  by_cases same : id.path = g.module
  · have version : id.version ≠ g.version := by
      intro sameVersion
      refine other ?_
      cases id
      cases same
      cases sameVersion
      rfl
    have found : (l.insert g).modules.find? id.path =
        some (((l.modules.find? g.module).getD SortedMap.empty).insert g.version g) := by
      rw [same]
      exact SortedMap.find?_insert_self l.modules g.module _
    rw [get?, found, get?, same, Option.bind_some, SortedMap.find?_insert_of_ne _ _ version]
    cases l.modules.find? g.module <;> rfl
  · rw [get?, get?, find?_modules_insert_of_ne l same]

theorem insert_comm (l : ModuleLibrary) {g h : ModuleGraph} (other : g.id ≠ h.id) :
    (l.insert g).insert h = (l.insert h).insert g := by
  rw [insert, insert, insert, insert, mk.injEq]
  by_cases same : g.module = h.module
  · have version : g.version ≠ h.version := fun sameVersion =>
      other (by rw [ModuleGraph.id, ModuleGraph.id, same, sameVersion])
    simp only [same, SortedMap.find?_insert_self, Option.getD_some, SortedMap.insert_insert_self]
    rw [SortedMap.insert_comm _ _ _ version]
  · simp only [SortedMap.find?_insert_of_ne _ _ same, SortedMap.find?_insert_of_ne _ _ (Ne.symm same)]
    rw [SortedMap.insert_comm _ _ _ same]

/-- Graphs of different modules can be added in any order. -/
theorem foldl_insert_perm {graphs graphs' : List ModuleGraph} (perm : graphs.Perm graphs')
    (distinct : (graphs.map ModuleGraph.id).Nodup) (l : ModuleLibrary) :
    graphs.foldl insert l = graphs'.foldl insert l := by
  refine perm.foldl_eq' (fun g inside h inside' l => ?_) l
  by_cases same : g.id = h.id
  · rw [List.inj_on_of_nodup_map distinct inside inside' same]
  · exact l.insert_comm same

theorem find?_modules_foldl_insert {graphs : List ModuleGraph} {l : ModuleLibrary} {path : Path}
    (none : ∀ g ∈ graphs, g.module ≠ path) :
    (graphs.foldl insert l).modules.find? path = l.modules.find? path := by
  induction graphs generalizing l with
  | nil => rfl
  | cons g graphs ih =>
    obtain ⟨first, none⟩ := List.forall_mem_cons.mp none
    rw [List.foldl_cons, ih none, find?_modules_insert_of_ne l (Ne.symm first)]

theorem get?_foldl_insert_of_not_mem {graphs : List ModuleGraph} {l : ModuleLibrary} {id : ModuleId}
    (none : ∀ g ∈ graphs, g.id ≠ id) : (graphs.foldl insert l).get? id = l.get? id := by
  induction graphs generalizing l with
  | nil => rfl
  | cons g graphs ih =>
    obtain ⟨first, none⟩ := List.forall_mem_cons.mp none
    rw [List.foldl_cons, ih none, get?_insert_of_ne l (Ne.symm first)]

/-- Of several graphs that are added, one is found that is the only one of its module and version. -/
theorem get?_foldl_insert_of_unique {graphs : List ModuleGraph} {l : ModuleLibrary} {g : ModuleGraph}
    (unique : ∀ h ∈ graphs, h.id = g.id → h = g) (member : g ∈ graphs) :
    (graphs.foldl insert l).get? g.id = some g := by
  induction graphs generalizing l with
  | nil => cases member
  | cons first graphs ih =>
    rw [List.foldl_cons]
    by_cases later : g ∈ graphs
    · exact ih (fun h inside => unique h (List.mem_cons_of_mem _ inside)) later
    · obtain rfl := (List.mem_cons.mp member).resolve_right later
      rw [get?_foldl_insert_of_not_mem, get?_insert_self]
      exact fun h inside same => later (unique h (List.mem_cons_of_mem _ inside) same ▸ inside)

theorem get?_foldl_insert {graphs : List ModuleGraph} {l : ModuleLibrary} {g : ModuleGraph}
    (distinct : (graphs.map ModuleGraph.id).Nodup) (member : g ∈ graphs) :
    (graphs.foldl insert l).get? g.id = some g :=
  get?_foldl_insert_of_unique (fun _ inside same => List.inj_on_of_nodup_map distinct inside member same) member

theorem get?_foldl_insert_cases {graphs : List ModuleGraph} {l : ModuleLibrary} {id : ModuleId}
    {g : ModuleGraph} (held : (graphs.foldl insert l).get? id = some g) :
    l.get? id = some g ∨ g ∈ graphs ∧ g.id = id := by
  induction graphs generalizing l with
  | nil => exact .inl held
  | cons first graphs ih =>
    rcases ih held with before | ⟨member, own⟩
    · by_cases same : id = first.id
      · rw [same, get?_insert_self] at before
        obtain rfl := Option.some.inj before
        exact .inr ⟨List.mem_cons_self, same.symm⟩
      · rw [get?_insert_of_ne l same] at before
        exact .inl before
    · exact .inr ⟨List.mem_cons_of_mem _ member, own⟩

/-- Every graph is held under its own module and version. -/
def IsKeyed (l : ModuleLibrary) : Prop := ∀ id g, l.get? id = some g → g.id = id

theorem isKeyed_empty : IsKeyed {} := fun _ _ held => nomatch held

theorem IsKeyed.foldl_insert {l : ModuleLibrary} (keyed : l.IsKeyed) (graphs : List ModuleGraph) :
    (graphs.foldl insert l).IsKeyed := fun id g held =>
  (get?_foldl_insert_cases held).elim (keyed id g) And.right

theorem mem_outerPaths_iff {path outer : Path} :
    outer ∈ outerPaths path ↔ path.startsWith outer = true ∧ outer.length < path.length := by
  rw [outerPaths, List.mem_filterMap]
  simp only [List.mem_reverse, List.mem_range]
  constructor
  · rintro ⟨n, small, taken⟩
    obtain ⟨begins, length⟩ := Path.startsWith_of_take? taken
    exact ⟨begins, length ▸ small⟩
  · rintro ⟨begins, shorter⟩
    exact ⟨outer.length, shorter, Path.take?_of_startsWith begins⟩

theorem mem_outerPaths {path outer : Path} (member : outer ∈ outerPaths path) :
    path.startsWith outer = true ∧ outer.length < path.length := mem_outerPaths_iff.mp member

theorem outerPaths_sorted (path : Path) :
    (outerPaths path).Pairwise fun outer inner => inner.length < outer.length := by
  have descending : ((List.range path.length).reverse).Pairwise fun n m => m < n :=
    List.pairwise_reverse.mpr List.pairwise_lt_range
  refine descending.filterMap path.take? fun n m less outer taken inner taken' => ?_
  rw [(Path.startsWith_of_take? taken).2, (Path.startsWith_of_take? taken').2]
  exact less

/-- Without a pin the highest version of a module is taken. -/
theorem highest_of_select {l : ModuleLibrary} {path : Path} {g : ModuleGraph}
    (selected : l.select path none = some g) : ∃ version, l.get? ⟨path, version⟩ = some g ∧
      ∀ version' g', l.get? ⟨path, version'⟩ = some g' → version' = version ∨ version' < version := by
  obtain ⟨versions, found, last⟩ := Option.bind_eq_some_iff.mp selected
  obtain ⟨version, atLast, highest⟩ := SortedMap.find?_of_last? last
  refine ⟨version, Option.bind_eq_some_iff.mpr ⟨versions, found, atLast⟩, fun version' g' held => ?_⟩
  obtain ⟨versions', found', held⟩ := Option.bind_eq_some_iff.mp held
  cases found.symm.trans found'
  exact (highest version' g' held).imp_right fun less => less

theorem exists_select {l : ModuleLibrary} {id : ModuleId} {g : ModuleGraph} (held : l.get? id = some g) :
    ∃ g', l.select id.path none = some g' := by
  obtain ⟨versions, found, held⟩ := Option.bind_eq_some_iff.mp held
  obtain ⟨g', last⟩ := SortedMap.exists_last? held
  exact ⟨g', Option.bind_eq_some_iff.mpr ⟨versions, found, last⟩⟩

theorem get?_of_select {l : ModuleLibrary} {path : Path} {pin : Option Version} {g : ModuleGraph}
    (selected : l.select path pin = some g) : ∃ version, l.get? ⟨path, version⟩ = some g := by
  cases pin with
  | some version => exact ⟨version, selected⟩
  | none =>
    obtain ⟨version, held, _⟩ := highest_of_select selected
    exact ⟨version, held⟩

theorem select_of_owner {l : ModuleLibrary} {path : Path} {pin : Option Version} {g : ModuleGraph}
    (owner : l.owner path pin = some g) : ∃ outer ∈ outerPaths path, l.select outer pin = some g := by
  have member := List.mem_of_find?_eq_some owner
  exact List.mem_filterMap.mp member

theorem contains_of_owner {l : ModuleLibrary} {path : Path} {pin : Option Version} {g : ModuleGraph}
    (owner : l.owner path pin = some g) : g.contains path = true :=
  List.find?_some (p := fun g : ModuleGraph => g.contains path) owner

/-- Where a search over what a list gives succeeds, it ends at the place known to succeed or before it. -/
theorem exists_find?_filterMap {α β : Type} {f : α → Option β} {p : β → Bool} {R : α → α → Prop}
    {l : List α} (sorted : l.Pairwise R) {a : α} {b : β} (member : a ∈ l) (gives : f a = some b)
    (holds : p b = true) : ∃ a' ∈ l, (a' = a ∨ R a' a) ∧ ∃ b', f a' = some b' ∧ p b' = true ∧
      (l.filterMap f).find? p = some b' := by
  induction l with
  | nil => cases member
  | cons first l ih =>
    obtain ⟨earlier, sorted⟩ := List.pairwise_cons.mp sorted
    by_cases atFirst : ∃ b', f first = some b' ∧ p b' = true
    · obtain ⟨b', gives', holds'⟩ := atFirst
      refine ⟨first, List.mem_cons_self, ?_, b', gives', holds', ?_⟩
      · exact (List.mem_cons.mp member).imp Eq.symm (earlier a)
      · rw [List.filterMap_cons_some gives', List.find?_cons_of_pos holds']
    · have later : a ∈ l := (List.mem_cons.mp member).resolve_left fun same =>
        atFirst ⟨b, same ▸ gives, holds⟩
      obtain ⟨a', inside, order, b', gives', holds', found⟩ := ih sorted later
      refine ⟨a', List.mem_cons_of_mem _ inside, order, b', gives', holds', ?_⟩
      rw [List.filterMap_cons]
      split
      · exact found
      next other gives'' =>
        exact (List.find?_cons_of_neg fun holds'' => atFirst ⟨other, gives'', holds''⟩).trans found

/-- A module around the path that has it owns it, or a longer one does. -/
theorem owner_of_select {l : ModuleLibrary} {path outer : Path} {pin : Option Version} {g : ModuleGraph}
    (around : outer ∈ outerPaths path) (selected : l.select outer pin = some g)
    (has : g.contains path = true) : ∃ inner ∈ outerPaths path, outer.length ≤ inner.length ∧
      ∃ g', l.select inner pin = some g' ∧ g'.contains path = true ∧ l.owner path pin = some g' := by
  obtain ⟨inner, inside, order, owner⟩ := exists_find?_filterMap (f := fun m => l.select m pin)
    (p := fun g => g.contains path) (outerPaths_sorted path) around selected has
  refine ⟨inner, inside, ?_, owner⟩
  rcases order with rfl | longer
  · exact Nat.le_refl _
  · exact Nat.le_of_lt longer

/-- Who owns a path depends only on the modules around it. -/
theorem owner_congr {l l' : ModuleLibrary} {path : Path} (pin : Option Version)
    (same : ∀ outer ∈ outerPaths path, l.modules.find? outer = l'.modules.find? outer) :
    l.owner path pin = l'.owner path pin := by
  have selected : (outerPaths path).filterMap (fun module => l.select module pin) =
      (outerPaths path).filterMap (fun module => l'.select module pin) :=
    List.filterMap_congr fun outer member => by rw [select, select, same outer member]
  rw [owner, owner, selected]

theorem expanderOf_ne_none {l : ModuleLibrary} {g : ModuleGraph} {target exclude : Path} {e : Edge}
    (held : l.get? g.id = some g) (other : g.module ≠ exclude) (member : e ∈ g.edges)
    (expansion : e.isExpansion = true) (reaches : ∃ t ∈ e.targets, t.path = target) :
    l.expanderOf target g.version exclude ≠ none := by
  obtain ⟨versions, foundModule, foundVersion⟩ := Option.bind_eq_some_iff.mp held
  have entry : (g.module, versions) ∈ l.modules.entries := SortedMap.find?_eq_some_iff.mp foundModule
  intro none
  rw [expanderOf, Option.map_eq_none_iff, List.find?_eq_none] at none
  refine none e ?_ ?_
  · refine List.mem_flatMap.mpr ⟨g, List.mem_filterMap.mpr ⟨_, entry, ?_⟩, member⟩
    exact (if_neg other).trans foundVersion
  · obtain ⟨t, atEnd, same⟩ := reaches
    rw [expansion, Bool.true_and, List.any_eq_true]
    exact ⟨t, atEnd, beq_iff_eq.mpr same⟩

theorem exists_of_expanderOf {l : ModuleLibrary} {target exclude : Path} {version : Version}
    (expanded : l.expanderOf target version exclude ≠ none) : ∃ path g, l.get? ⟨path, version⟩ = some g ∧
      path ≠ exclude ∧ ∃ e ∈ g.edges, e.isExpansion = true ∧ ∃ t ∈ e.targets, t.path = target := by
  rw [expanderOf, ne_eq, Option.map_eq_none_iff, List.find?_eq_none] at expanded
  simp only [not_forall, not_not] at expanded
  obtain ⟨e, member, reaches⟩ := expanded
  rw [Bool.and_eq_true, List.any_eq_true] at reaches
  obtain ⟨expansion, t, atEnd, same⟩ := reaches
  obtain ⟨g, inside, member⟩ := List.mem_flatMap.mp member
  obtain ⟨⟨path, versions⟩, entry, found⟩ := List.mem_filterMap.mp inside
  dsimp only at found
  split at found
  · cases found
  next other =>
    refine ⟨path, g, ?_, other, e, member, expansion, t, atEnd, beq_iff_eq.mp same⟩
    rw [get?, SortedMap.find?_eq_some_iff.mpr entry]
    exact found

end ModuleLibrary

end Deductions
