import Deductions.Proofs.Companions
import Deductions.Proofs.Faithful
import Deductions.Proofs.Graph.Listing
import Deductions.Proofs.Snapshot.Assembly

namespace Deductions

open Resolution

/-- What the resolution of a candidate gives whose nodes stand under their paths. -/
def ResolvedModule.IsResolved (m : ResolvedModule) : Prop :=
  ∃ (c : Candidate) (s : Surroundings), c.graph.IsKeyed ∧ c.resolve s = .ok m

namespace ResolvedModule.IsResolved

variable {m : ResolvedModule} (resolved : m.IsResolved)
include resolved

theorem isKeyed : m.graph.IsKeyed := by
  obtain ⟨c, s, keyed, resolved⟩ := resolved
  rw [(Candidate.resolve_eq_ok resolved).2.1]
  exact keyed

/-- Only nodes of the module have narrations. -/
theorem contains_owner {owner : Path} {steps : List ResolvedStep}
    (narrated : m.narrations.find? owner = some steps) : m.graph.contains owner = true := by
  obtain ⟨c, s, keyed, resolved⟩ := resolved
  rw [Candidate.narrations_of_resolve resolved] at narrated
  rw [(Candidate.resolve_eq_ok resolved).2.1]
  obtain ⟨n, member, rfl⟩ : ∃ n ∈ c.graph.walk.getD [], n.path = owner := by
    refine List.mem_map.mp (Classical.byContradiction fun outside => ?_)
    have none : (findings c s).narrations.find? owner = none := find?_narrations_foldl_of_notMem outside
    cases none.symm.trans narrated
  cases walked : c.graph.walk with
  | none =>
    rw [walked] at member
    cases member
  | some nodes =>
    rw [walked] at member
    exact keyed.contains_of_mem ((ModuleGraph.walk_eq_some_iff.mp walked).mem_values keyed member)

end ResolvedModule.IsResolved

/-- A module that compiles is resolved. -/
theorem ResolvedModule.isResolved_of_compile {source : ModuleSource} {s : Surroundings} {m : ResolvedModule}
    (compiled : source.compile s = .ok m) : m.IsResolved := by
  obtain ⟨c, built, resolved⟩ := ModuleSource.compile_eq_ok.mp compiled
  obtain ⟨_, _, build⟩ := source.build_eq_ok built
  exact ⟨c, s, (Candidate.isForest_of_build build).keyed, resolved⟩

namespace Snapshot

/-- A change of a snapshot in place: what was written before an error stays written. -/
abbrev Edit := ExceptT Path (StateM Snapshot)

/-- Writes the module, its nodes, its edges, its narrations and the nodes that it refers to. -/
def Edit.write (m : ResolvedModule) : Edit Unit := do
  modify fun s => { s with modules := s.modules.insert m.graph.module m.graph.roots }
  for n in m.graph.nodes.values do
    modify fun s => { s with nodes := s.nodes.insert n.path n }
  for e in m.graph.edges do
    modify fun s => { s with edges := s.edges ++ [e] }
  for entry in m.narrations.entries do
    modify fun s => { s with narrations := s.narrations.insert entry.1 entry.2 }
  for r in SortedSet.toList m.external do
    modify fun s => { s with external := SortedSet.insert s.external r }

/-- Writes what a module has, unless the module or one of its nodes is there already. -/
def Edit.addModule (m : ResolvedModule) : Edit Unit := do
  let s ← get
  if s.modules.contains m.graph.module then throw m.graph.module
  match m.graph.nodes.values.find? fun n => s.nodes.contains n.path with
  | some taken => throw taken.path
  | none => Edit.write m

/-- What a call answers, and the snapshot that it leaves behind. -/
def execute (s : Snapshot) (m : ResolvedModule) : Except Path Unit × Snapshot := (Edit.addModule m).run.run s

/-- The snapshot that calls leave behind, one after the other. -/
def executeAll (s : Snapshot) (calls : List ResolvedModule) : Snapshot :=
  calls.foldl (fun s m => (s.execute m).2) s

/-- The modules that were not refused. -/
def accepted (s : Snapshot) : List ResolvedModule → List ResolvedModule
  | [] => []
  | m :: calls =>
    match s.execute m with
    | (.ok _, s') => m :: s'.accepted calls
    | (.error _, s') => s'.accepted calls

/-- What is answered and left behind if a snapshot is replaced at once or not at all. -/
def outcome (s : Snapshot) : Except Path Snapshot → Except Path Unit × Snapshot
  | .ok s' => (.ok (), s')
  | .error path => (.error path, s)

theorem Edit.run_bind {α β : Type} {edit : Edit α} {next : α → Edit β} {s s' : Snapshot} {a : α}
    (runs : edit.run.run s = (.ok a, s')) : (edit >>= next).run.run s = (next a).run.run s' := by
  rw [ExceptT.run_bind, StateT.run_bind, runs]
  rfl

/-- Entries that are written one after the other. -/
theorem Edit.run_forIn {α : Type} (put : Snapshot → α → Snapshot) (l : List α) (s : Snapshot) :
    (forIn l PUnit.unit fun a _ => do
      modify fun s => put s a
      pure (ForInStep.yield PUnit.unit) : Edit PUnit).run.run s = (.ok PUnit.unit, l.foldl put s) := by
  induction l generalizing s with
  | nil => rfl
  | cons a l ih =>
    rw [List.forIn_cons]
    exact ih _

theorem Edit.run_write (s : Snapshot) (m : ResolvedModule) : (Edit.write m).run.run s = (.ok (), { s with
    modules := s.modules.insert m.graph.module m.graph.roots
    nodes := m.graph.nodes.values.foldl (fun nodes n => nodes.insert n.path n) s.nodes
    edges := s.edges ++ m.graph.edges
    narrations := s.narrations.union m.narrations
    external := (SortedSet.toList m.external).foldl SortedSet.insert s.external }) := by
  -- each loop replaces one collection only
  have nodes : ∀ (s : Snapshot) (l : List Node), l.foldl (fun s n => { s with nodes := s.nodes.insert n.path n }) s =
      { s with nodes := l.foldl (fun nodes n => nodes.insert n.path n) s.nodes } := fun s l =>
    List.foldl_hom (fun nodes => { s with nodes := nodes }) fun _ _ => rfl
  have edges : ∀ (s : Snapshot) (l : List Edge), l.foldl (fun s e => { s with edges := s.edges ++ [e] }) s =
      { s with edges := s.edges ++ l } := by
    intro s l
    have appended : l.foldl (fun s e => { s with edges := s.edges ++ [e] }) s =
        { s with edges := l.foldl (fun edges e => edges ++ [e]) s.edges } :=
      List.foldl_hom (fun edges => { s with edges := edges }) fun _ _ => rfl
    rw [appended, List.foldl_append_eq_append, ← List.flatMap_def, List.flatMap_singleton']
  have narrations : ∀ (s : Snapshot) (l : List (Path × List ResolvedStep)),
      l.foldl (fun s entry => { s with narrations := s.narrations.insert entry.1 entry.2 }) s =
        { s with narrations := l.foldl (fun m e => m.insert e.1 e.2) s.narrations } := fun s l =>
    List.foldl_hom (fun narrations => { s with narrations := narrations }) fun _ _ => rfl
  have external : ∀ (s : Snapshot) (l : List NodeRef),
      l.foldl (fun s r => { s with external := SortedSet.insert s.external r }) s =
        { s with external := l.foldl SortedSet.insert s.external } := fun s l =>
    List.foldl_hom (fun external => { s with external := external }) fun _ _ => rfl
  rw [Edit.write]
  refine (Edit.run_bind rfl).trans ?_
  refine (Edit.run_bind (Edit.run_forIn ..)).trans ?_
  refine (Edit.run_bind (Edit.run_forIn ..)).trans ?_
  refine (Edit.run_bind (Edit.run_forIn ..)).trans ?_
  refine (Edit.run_bind (Edit.run_forIn ..)).trans ?_
  rw [nodes, edges, narrations, external]
  rfl

/-- A call in place does what it does to a snapshot that is replaced. -/
theorem execute_eq (s : Snapshot) (m : ResolvedModule) :
    s.execute m = s.outcome (s.addModule m.graph m.narrations (SortedSet.toList m.external)) := by
  rw [execute, Edit.addModule, addModule]
  refine (Edit.run_bind (a := s) rfl).trans ?_
  by_cases present : s.modules.contains m.graph.module = true
  · rw [if_pos present, if_pos present]
    rfl
  · rw [if_neg present, if_neg present]
    cases m.graph.nodes.values.find? fun n => s.nodes.contains n.path with
    | some taken => rfl
    | none => exact Edit.run_write s m

theorem executeAll_cons (s : Snapshot) (m : ResolvedModule) (calls : List ResolvedModule) :
    s.executeAll (m :: calls) = (s.execute m).2.executeAll calls := rfl

theorem subset_of_accepted (s : Snapshot) (calls : List ResolvedModule) : s.accepted calls ⊆ calls := by
  induction calls generalizing s with
  | nil => exact List.Subset.refl _
  | cons m calls ih =>
    rw [accepted]
    split
    · exact List.cons_subset_cons m (ih _)
    · exact List.subset_cons_of_subset m (ih _)

theorem addAll_cons (s : Snapshot) (m : ResolvedModule) (modules : List ResolvedModule) :
    s.addAll ((m :: modules).map ResolvedModule.addition) =
      s.addModule m.graph m.narrations (SortedSet.toList m.external) >>= fun s' =>
        s'.addAll (modules.map ResolvedModule.addition) := by
  rw [List.map_cons, addAll, List.foldlM_cons]
  rfl

/-- Calls leave behind what there is after those alone that were not refused. -/
theorem addAll_accepted (s : Snapshot) (calls : List ResolvedModule) :
    s.addAll ((s.accepted calls).map ResolvedModule.addition) = .ok (s.executeAll calls) := by
  induction calls generalizing s with
  | nil => rfl
  | cons m calls ih =>
    rw [executeAll_cons, accepted, execute_eq]
    cases added : s.addModule m.graph m.narrations (SortedSet.toList m.external) with
    | error path => exact ih s
    | ok s' =>
      change s.addAll ((m :: s'.accepted calls).map ResolvedModule.addition) = .ok (s'.executeAll calls)
      rw [addAll_cons, added]
      exact ih s'

/-- A call is refused if the module is there already, or one of its nodes is, and leaves the snapshot as it was. -/
theorem execute_refused_iff (s : Snapshot) {m : ResolvedModule} (keyed : m.graph.IsKeyed) :
    (∃ path, (s.execute m).1 = .error path) ↔
      m.graph.module ∈ s.modules.keys ∨ ∃ path, m.graph.contains path = true ∧ s.contains path = true := by
  rw [execute_eq, addModule, ← SortedMap.contains_iff]
  by_cases present : s.modules.contains m.graph.module = true
  · rw [if_pos present]
    exact iff_of_true ⟨_, rfl⟩ (.inl present)
  rw [if_neg present, or_iff_right present]
  cases first : m.graph.nodes.values.find? fun n => s.nodes.contains n.path with
  | some n =>
    have own := keyed.contains_of_mem (List.mem_of_find?_eq_some first)
    have stored := List.find?_some (p := fun n : Node => s.nodes.contains n.path) first
    exact iff_of_true ⟨_, rfl⟩ ⟨n.path, own, stored⟩
  | none =>
    refine iff_of_false ?_ ?_
    · rintro ⟨_, refused⟩
      cases refused
    · rintro ⟨path, own, stored⟩
      obtain ⟨n, found⟩ := ModuleGraph.contains_iff.mp own
      have atPath := keyed path n found
      refine List.find?_eq_none.mp first n (keyed.mem_values_iff.mpr (atPath.symm ▸ found)) ?_
      rw [atPath]
      exact stored

theorem execute_unchanged {s : Snapshot} {m : ResolvedModule} {path : Path}
    (refused : (s.execute m).1 = .error path) : (s.execute m).2 = s := by
  rw [execute_eq] at refused ⊢
  cases added : s.addModule m.graph m.narrations (SortedSet.toList m.external) with
  | error path => rfl
  | ok s' =>
    rw [added] at refused
    cases refused

/-- The snapshot holds all that the modules have, and nothing else; no node is of two of them. -/
structure IsUnionOf (s : Snapshot) (modules : List ResolvedModule) : Prop where
  distinct : (modules.map fun m => m.graph.module).Nodup
  roots : ∀ path roots, s.modules.find? path = some roots ↔
    ∃ m ∈ modules, m.graph.module = path ∧ m.graph.roots = roots
  disjoint : modules.Pairwise fun m m' => ∀ path, m.graph.contains path = true → m'.graph.contains path = false
  nodes : ∀ path n, s.node? path = some n ↔ ∃ m ∈ modules, m.graph.node? path = some n
  edges : s.edges = modules.flatMap fun m => m.graph.edges
  narrations : ∀ owner steps, s.narrations.find? owner = some steps ↔
    ∃ m ∈ modules, m.narrations.find? owner = some steps
  external : ∀ r, s.external.contains r = true ↔ ∃ m ∈ modules, m.external.contains r = true

section

variable {library : String} {version : Version} {modules : List ResolvedModule} {s : Snapshot}
  (resolved : ∀ m ∈ modules, m.IsResolved)

include resolved in
theorem isKeyed_additions : ∀ a ∈ modules.map ResolvedModule.addition, a.graph.IsKeyed :=
  List.forall_mem_map.mpr fun m member => (resolved m member).isKeyed

variable (added : addAll { library := library, version := version } (modules.map ResolvedModule.addition) = .ok s)
include resolved added

theorem isMadeOf_resolved : s.IsMadeOf (modules.map ResolvedModule.addition) :=
  (isMadeOf_addAll (isKeyed_additions resolved) added).1

/-- What is added of resolved modules is held as their union. -/
theorem isUnionOf_addAll : s.IsUnionOf modules := by
  have madeOf := isMadeOf_resolved resolved added
  have distinct : (modules.map fun m => m.graph.module).Nodup := by
    have once := madeOf.distinct
    rwa [List.map_map] at once
  -- no two of the modules have a node in common
  have single : ∀ m ∈ modules, ∀ m' ∈ modules, ∀ path, m.graph.contains path = true →
      m'.graph.contains path = true → m.graph.module = m'.graph.module := fun m inside m' inside' =>
    madeOf.disjoint _ (List.mem_map_of_mem inside) _ (List.mem_map_of_mem inside')
  constructor
  case distinct => exact distinct
  case roots => simpa only [List.mem_map, exists_exists_and_eq_and, ResolvedModule.addition] using madeOf.modules
  case disjoint =>
    refine (List.pairwise_map.mp distinct).imp_of_mem fun {m m'} inside inside' other path own => ?_
    exact Bool.eq_false_iff.mpr fun own' => other (single m inside m' inside' path own own')
  case nodes => simpa only [List.mem_map, exists_exists_and_eq_and, ResolvedModule.addition] using madeOf.nodes
  case edges =>
    rw [madeOf.edges, List.flatMap_map]
    rfl
  case narrations =>
    intro owner steps
    have given : s.narrations = (modules.map ResolvedModule.narrations).foldl SortedMap.union SortedMap.empty := by
      rw [narrations_addAll (isKeyed_additions resolved) added, List.foldl_map, List.foldl_map]
      rfl
    rw [given, SortedMap.find?_foldl_union]
    · simp only [List.mem_map, exists_exists_and_eq_and]
    -- owners are nodes, so no two of the modules have a narration of one
    intro first inFirst second inSecond steps steps' found found'
    obtain ⟨m, inside, rfl⟩ := List.mem_map.mp inFirst
    obtain ⟨m', inside', rfl⟩ := List.mem_map.mp inSecond
    have same := single m inside m' inside' owner ((resolved m inside).contains_owner found)
      ((resolved m' inside').contains_owner found')
    obtain rfl := List.inj_on_of_nodup_map distinct inside inside' same
    exact Option.some.inj (found.symm.trans found')
  case external =>
    intro r
    rw [SortedMap.contains_iff]
    refine (madeOf.external r).trans ?_
    simp only [List.mem_map, exists_exists_and_eq_and, ResolvedModule.addition, SortedMap.contains_iff, SortedSet.toList]

end

/-- Modules that are added in place, one after the other, are refused if they are there already or one of their
nodes is, and then leave the snapshot as it was; it holds all that the others have, and nothing else. So it is as
if the snapshot were replaced at once or not at all. -/
theorem executeAll_isUnionOf (library : String) (version : Version) (calls : List ResolvedModule)
    (resolved : ∀ m ∈ calls, m.IsResolved) :
    let empty : Snapshot := { library := library, version := version }
    let s := empty.executeAll calls
    s.IsUnionOf (empty.accepted calls) ∧
      (∀ m : ResolvedModule, m.IsResolved →
        ((∃ path, (s.execute m).1 = .error path) ↔
          (∃ m' ∈ empty.accepted calls, m'.graph.module = m.graph.module) ∨
            ∃ path, m.graph.contains path = true ∧ s.contains path = true) ∧
        ∀ path, (s.execute m).1 = .error path → (s.execute m).2 = s) ∧
      ∀ (s : Snapshot) (m : ResolvedModule),
        s.execute m = s.outcome (s.addModule m.graph m.narrations (SortedSet.toList m.external)) := by
  intro empty s
  have added := addAll_accepted empty calls
  have resolved : ∀ m ∈ empty.accepted calls, m.IsResolved := fun m member =>
    resolved m (subset_of_accepted empty calls member)
  refine ⟨isUnionOf_addAll resolved added, fun m isResolved => ⟨?_, fun path => execute_unchanged⟩, execute_eq⟩
  rw [execute_refused_iff s isResolved.isKeyed, (isMadeOf_resolved resolved added).mem_keys_iff, List.map_map,
    List.mem_map]
  rfl

/-- A module with a narrated declaration, and one whose node has the path of a node inside it. -/
def narratingSource : ModuleSource :=
  ⟨.single "p", .plain 1 0 0, "deduc T \x7b subdeduc D \x7b\x7d asrt C \x7b en = \"c\" \x7d narration = \"Therefore C.\" \x7d"⟩

def clashingSource : ModuleSource := ⟨narratingSource.path.child "T", .plain 1 0 0, "deduc D \x7b\x7d"⟩

/-- The second module is refused for its node, and the first one for itself the second time. -/
theorem executeAll_isUnionOf_narratingSource : ∃ m m', narratingSource.compile {} = .ok m ∧
    clashingSource.compile {} = .ok m' ∧
    let s := executeAll { library := "s", version := .plain 1 0 0 } [m, m']
    s.IsUnionOf [m] ∧ (∃ steps, s.narrations.find? (narratingSource.path.child "T") = some steps) ∧
      s.execute m' = (.error (clashingSource.path.child "D"), s) ∧ s.execute m = (.error narratingSource.path, s) := by
  let empty : Snapshot := { library := "s", version := .plain 1 0 0 }
  have runs : ((narratingSource.compile {}).toOption.bind fun m => (clashingSource.compile {}).toOption.bind fun m' =>
      if empty.accepted [m, m'] = [m] ∧
          (empty.executeAll [m, m']).narrations.contains (narratingSource.path.child "T") = true ∧
          ((empty.executeAll [m, m']).execute m').1 = .error (clashingSource.path.child "D") ∧
          ((empty.executeAll [m, m']).execute m).1 = .error narratingSource.path
        then some (m, m') else none).isSome = true := by
    decide +kernel
  obtain ⟨⟨_, _⟩, runs⟩ := Option.isSome_iff_exists.mp runs
  obtain ⟨m, compiled, runs⟩ := Option.bind_eq_some_iff.mp runs
  obtain ⟨m', compiled', runs⟩ := Option.bind_eq_some_iff.mp runs
  obtain ⟨⟨accepted, narrated, clashes, again⟩, _⟩ := Option.ite_none_right_eq_some.mp runs
  have compiled := Batch.toOption_eq_some_iff.mp compiled
  have compiled' := Batch.toOption_eq_some_iff.mp compiled'
  have resolved := ResolvedModule.isResolved_of_compile compiled
  have resolved' := ResolvedModule.isResolved_of_compile compiled'
  obtain ⟨union, step, _⟩ := executeAll_isUnionOf "s" (.plain 1 0 0) [m, m']
    (List.forall_mem_cons.mpr ⟨resolved, List.forall_mem_singleton.mpr resolved'⟩)
  exact ⟨m, m', compiled, compiled', accepted ▸ union, Option.isSome_iff_exists.mp narrated,
    Prod.ext clashes ((step m' resolved').2 _ clashes), Prod.ext again ((step m resolved).2 _ again)⟩

end Snapshot

end Deductions
