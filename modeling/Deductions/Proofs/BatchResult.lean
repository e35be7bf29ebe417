import Deductions.Proofs.Batch

namespace Deductions

namespace Batch

def builtOf (sources : List ModuleSource) : List (ModuleId × Except CompileError Candidate) :=
  sources.map fun s => (s.id, s.build)

def idsOf (sources : List ModuleSource) : List ModuleId :=
  SortedSet.toList (SortedSet.ofList ((builtOf sources).map Prod.fst))

def candidate? (b : ModuleId × Except CompileError Candidate) : Option (ModuleId × Candidate) :=
  b.2.toOption.map fun c => (b.1, c)

def candidatesOf (sources : List ModuleSource) : SortedMap ModuleId Candidate :=
  SortedMap.ofList ((builtOf sources).filterMap candidate?)

def refusedOf (sources : List ModuleSource) : SortedMap ModuleId Outcome :=
  SortedMap.ofList ((builtOf sources).filterMap fun (id, outcome) =>
    match outcome with
    | .ok _ => none
    | .error e => some (id, Except.error e))

def dependenciesIn (sources : List ModuleSource) (imports : ImportTable) :
    SortedMap ModuleId (List ModuleId) :=
  (candidatesOf sources).mapValues fun c => dependencies c imports (idsOf sources)

/-- Where the rounds of a batch come to. -/
def lastProgress (sources : List ModuleSource) (library : ModuleLibrary) (imports : ImportTable)
    (previous : Option Snapshot) : Progress :=
  run (candidatesOf sources) (dependenciesIn sources imports) imports previous (candidatesOf sources).size
    ⟨(candidatesOf sources).keys, refusedOf sources, [], library⟩

def stuckIn (sources : List ModuleSource) (imports : ImportTable) (p : Progress) : Relation ModuleId :=
  stuckRelation (dependenciesIn sources imports) p.pending

variable {sources : List ModuleSource} {library : ModuleLibrary} {imports : ImportTable}
  {previous : Option Snapshot}

def stuckOutcome (sources : List ModuleSource) (imports : ImportTable) (p : Progress) (id : ModuleId) :
    Outcome := .error (stuckError (stuckIn sources imports p) (stuckIn sources imports p).cycles id)

/-- What comes of a batch when no module is ready any more. -/
def resultOf (sources : List ModuleSource) (imports : ImportTable) (p : Progress) : BatchResult where
  outcomes := p.pending.foldl (fun m id => m.insert id (stuckOutcome sources imports p id)) p.outcomes
  layers := p.layers
  library := p.library

theorem compileBatch_eq : compileBatch sources library imports previous =
    resultOf sources imports (lastProgress sources library imports previous) := rfl

theorem fst_builtOf : (builtOf sources).map Prod.fst = sources.map ModuleSource.id := by
  rw [builtOf, List.map_map]
  rfl

theorem mem_idsOf {id : ModuleId} : id ∈ idsOf sources ↔ ∃ s ∈ sources, s.id = id := by
  rw [idsOf, SortedSet.mem_toList_ofList, fst_builtOf, List.mem_map]

theorem sublist_filterMap {α β γ : Type} {f : α → Option β} {g : β → γ} {h : α → γ} {l : List α}
    (keeps : ∀ a ∈ l, ∀ b, f a = some b → g b = h a) : ((l.filterMap f).map g).Sublist (l.map h) := by
  induction l with
  | nil => exact .slnil
  | cons a l ih =>
    obtain ⟨first, keeps⟩ := List.forall_mem_cons.mp keeps
    rw [List.filterMap_cons, List.map_cons]
    split
    · exact (ih keeps).cons _
    next b found =>
      rw [List.map_cons, first b found]
      exact (ih keeps).cons_cons _

section

variable (distinct : (sources.map ModuleSource.id).Nodup)
include distinct

theorem find?_candidatesOf {id : ModuleId} {c : Candidate} : (candidatesOf sources).find? id = some c ↔
    ∃ s ∈ sources, s.id = id ∧ s.build = .ok c := by
  have keys : (((builtOf sources).filterMap candidate?).map Prod.fst).Nodup := by
    refine List.Nodup.sublist (sublist_filterMap ?_) (fst_builtOf ▸ distinct)
    intro e _ e' found
    obtain ⟨c, _, rfl⟩ := Option.map_eq_some_iff.mp found
    rfl
  rw [candidatesOf, SortedMap.find?_ofList_eq_some_iff keys, List.mem_filterMap]
  constructor
  · rintro ⟨_, member, found⟩
    obtain ⟨s, inside, rfl⟩ := List.mem_map.mp member
    obtain ⟨c', built, same⟩ := Option.map_eq_some_iff.mp found
    cases same
    exact ⟨s, inside, rfl, toOption_eq_some_iff.mp built⟩
  · rintro ⟨s, inside, rfl, built⟩
    refine ⟨(s.id, s.build), List.mem_map_of_mem inside, ?_⟩
    rw [candidate?, built]
    rfl

theorem find?_refusedOf {id : ModuleId} {o : Outcome} : (refusedOf sources).find? id = some o ↔
    ∃ s ∈ sources, s.id = id ∧ ∃ e, s.build = .error e ∧ o = .error e := by
  refine (SortedMap.find?_ofList_eq_some_iff (List.Nodup.sublist (sublist_filterMap ?_)
    (fst_builtOf ▸ distinct))).trans ?_
  · rintro ⟨id, outcome⟩ _ e' found
    cases outcome <;> cases found
    rfl
  rw [List.mem_filterMap]
  constructor
  · rintro ⟨_, member, found⟩
    obtain ⟨s, inside, rfl⟩ := List.mem_map.mp member
    cases outcome : s.build with
    | ok c => simp [outcome] at found
    | error e =>
      simp only [outcome, Option.some.injEq, Prod.mk.injEq] at found
      obtain ⟨same, rfl⟩ := found
      exact ⟨s, inside, same, e, outcome, rfl⟩
  · rintro ⟨s, inside, rfl, e, outcome, rfl⟩
    exact ⟨(s.id, s.build), List.mem_map_of_mem inside, by simp [outcome]⟩

theorem contains_candidatesOf {id : ModuleId} : (candidatesOf sources).contains id = true ↔
    ∃ s ∈ sources, s.id = id ∧ ∃ c, s.build = .ok c := by
  rw [SortedMap.contains, Option.isSome_iff_exists]
  simp only [find?_candidatesOf distinct]
  constructor
  · rintro ⟨c, s, member, same, built⟩
    exact ⟨s, member, same, c, built⟩
  · rintro ⟨s, member, same, c, built⟩
    exact ⟨c, s, member, same, built⟩

theorem isHistory_start : IsHistory (candidatesOf sources) (dependenciesIn sources imports) imports previous
    library (refusedOf sources) ⟨(candidatesOf sources).keys, refusedOf sources, [], library⟩ where
  pending := by
    intro id member
    have isCandidate := SortedMap.contains_iff.mpr member
    refine ⟨isCandidate, ?_⟩
    obtain ⟨s, inside, same, c, built⟩ := (contains_candidatesOf distinct).mp isCandidate
    refine Option.eq_none_iff_forall_ne_some.mpr fun o found => ?_
    obtain ⟨s', inside', same', e, failed, _⟩ := (find?_refusedOf distinct).mp found
    obtain rfl := List.inj_on_of_nodup_map distinct inside inside' (same.trans same'.symm)
    rw [built] at failed
    cases failed
  distinctPending := SortedMap.nodup_keys _
  refused := fun _ _ => rfl
  done := fun id isCandidate notPending =>
    absurd (SortedMap.contains_iff.mp isCandidate) notPending
  layered := fun before layer after split => by simp at split
  distinct := .nil
  library := rfl

theorem isError_of_refusedOf {id : ModuleId} {o : Outcome} (found : (refusedOf sources).find? id = some o) :
    o.isError = true := by
  obtain ⟨_, _, _, e, _, rfl⟩ := (find?_refusedOf distinct).mp found
  rfl

theorem isHistory_lastProgress : IsHistory (candidatesOf sources) (dependenciesIn sources imports) imports
    previous library (refusedOf sources) (lastProgress sources library imports previous) :=
  run_induction (motive := IsHistory (candidatesOf sources) (dependenciesIn sources imports) imports
    previous library (refusedOf sources)) _ _ _ _
    (fun _ => IsHistory.next fun _ _ => isError_of_refusedOf distinct) _ (isHistory_start distinct)

/-- Modules of which each depends on one of them are pending in the end. -/
theorem mem_pending_lastProgress {waits : ModuleId → Prop}
    (candidate : ∀ id, waits id → (candidatesOf sources).contains id = true)
    (dependent : ∀ id, waits id → ∃ d ∈ dependenciesOf (dependenciesIn sources imports) id, waits d)
    {id : ModuleId} (member : waits id) :
    id ∈ (lastProgress sources library imports previous).pending := by
  refine (run_induction (motive := fun p => IsHistory (candidatesOf sources)
    (dependenciesIn sources imports) imports previous library (refusedOf sources) p ∧
      ∀ id, waits id → id ∈ p.pending) _ _ _ _ ?step _ ⟨isHistory_start distinct, ?start⟩).2 id member
  case step =>
    rintro p ⟨history, pending⟩
    refine ⟨history.next fun _ _ => isError_of_refusedOf distinct, fun id member => ?_⟩
    obtain ⟨d, isDependency, memberToo⟩ := dependent id member
    exact history.mem_pending_round (pending id member) isDependency (pending d memberToo)
  case start =>
    exact fun id member => SortedMap.contains_iff.mp (candidate id member)

/-- A module that depends on nothing is in the first layer in the end. -/
theorem first_lastProgress {id : ModuleId} (isCandidate : (candidatesOf sources).contains id = true)
    (independent : dependenciesOf (dependenciesIn sources imports) id = []) :
    ∃ ids rest, (lastProgress sources library imports previous).layers = ids :: rest ∧ id ∈ ids := by
  have run := run_induction (motive := fun p => IsHistory (candidatesOf sources)
    (dependenciesIn sources imports) imports previous library (refusedOf sources) p ∧
      (id ∈ p.pending ∧ p.layers = [] ∨ ∃ ids rest, p.layers = ids :: rest ∧ id ∈ ids)) _ _ _ _
    (fun p ⟨history, first⟩ => ⟨history.next fun _ _ => isError_of_refusedOf distinct,
      .inr (history.first_round independent first)⟩) (candidatesOf sources).size
    ⟨isHistory_start distinct, .inl ⟨SortedMap.contains_iff.mp isCandidate, rfl⟩⟩
  refine run.2.resolve_left fun ⟨isPending, _⟩ => ?_
  have noneReady : ready (dependenciesIn sources imports)
      (lastProgress sources library imports previous) = [] :=
    ready_run (by rw [SortedMap.keys, List.length_map]; exact Nat.le_refl _)
  have isReady : id ∈ ready (dependenciesIn sources imports)
      (lastProgress sources library imports previous) := by
    refine List.mem_filter.mpr ⟨isPending, ?_⟩
    rw [independent]
    rfl
  rw [noneReady] at isReady
  cases isReady

end

theorem find?_resultOf_of_pending {p : Progress} {id : ModuleId} (member : id ∈ p.pending) :
    (resultOf sources imports p).outcomes.find? id = some (stuckOutcome sources imports p id) :=
  SortedMap.find?_foldl_insert_keys (stuckOutcome sources imports p) member

theorem find?_resultOf_of_not_pending {p : Progress} {id : ModuleId} (done : id ∉ p.pending) :
    (resultOf sources imports p).outcomes.find? id = p.outcomes.find? id :=
  SortedMap.find?_foldl_insert_keys_of_not_mem (stuckOutcome sources imports p) done

theorem stuckError_cases (stuck : Relation ModuleId) (cycles : List (List ModuleId)) (id : ModuleId) :
    (∃ cycle, stuckError stuck cycles id = .cyclicImport id.path cycle) ∨
      ∃ dependency, stuckError stuck cycles id = .dependencyFailed id.path dependency := by
  unfold stuckError
  repeat' split
  · exact .inl ⟨_, rfl⟩
  · exact .inl ⟨_, rfl⟩
  · exact .inr ⟨_, rfl⟩
  · exact .inr ⟨_, rfl⟩

end Batch

section

open Batch

variable {sources : List ModuleSource} {library : ModuleLibrary} {imports : ImportTable}
  {previous : Option Snapshot} (distinct : (sources.map ModuleSource.id).Nodup)
include distinct

theorem compileBatch_layers_nodup : (compileBatch sources library imports previous).layers.flatten.Nodup :=
  (isHistory_lastProgress distinct).distinct

theorem find?_compileBatch_of_mem_layers {id : ModuleId}
    (member : id ∈ (compileBatch sources library imports previous).layers.flatten) :
    (compileBatch sources library imports previous).outcomes.find? id =
      (lastProgress sources library imports previous).outcomes.find? id := by
  rw [compileBatch_eq]
  exact find?_resultOf_of_not_pending ((isHistory_lastProgress distinct).of_mem_layers member)

/-- A module of a layer is resolved against the library with the modules of all earlier layers, and
these are all it depends on. -/
theorem compileBatch_layered {before after : List (List ModuleId)} {layer : List ModuleId}
    (split : (compileBatch sources library imports previous).layers = before ++ layer :: after)
    {id : ModuleId} (member : id ∈ layer) : ∃ s ∈ sources, s.id = id ∧ ∃ c, s.build = .ok c ∧
      (∀ d ∈ dependencies c imports (idsOf sources), d ∈ before.flatten) ∧
      (compileBatch sources library imports previous).outcomes.find? id =
        some (c.compile ⟨libraryWith library (compileBatch sources library imports previous).outcomes
          before.flatten, imports, previous⟩) := by
  have earlier : ∀ k ∈ before.flatten ++ (layer ++ after.flatten), _ := fun k inside =>
    find?_compileBatch_of_mem_layers distinct ((flatten_eq_of_split split).symm ▸ inside)
  obtain ⟨compiled, c, found, outcome⟩ :=
    (isHistory_lastProgress distinct).layered before layer after split id member
  obtain ⟨s, inside, same, built⟩ := (find?_candidatesOf distinct).mp found
  refine ⟨s, inside, same, c, built, fun d isDependency => (compiled d ?_).1, ?_⟩
  · rw [dependenciesOf, dependenciesIn, SortedMap.find?_mapValues, found]
    exact isDependency
  · rw [earlier id (List.mem_append_right _ (List.mem_append_left _ member)), outcome,
      libraryWith_congr]
    exact fun k inside => (earlier k (List.mem_append_left _ inside)).symm

theorem compileBatch_library : (compileBatch sources library imports previous).library =
    libraryWith library (compileBatch sources library imports previous).outcomes
      (compileBatch sources library imports previous).layers.flatten := by
  rw [libraryWith_congr library fun id member => find?_compileBatch_of_mem_layers distinct member]
  exact (isHistory_lastProgress distinct).library

/-- A module that is in no layer failed before it could be resolved. -/
theorem compileBatch_cases {id : ModuleId} {o : Outcome}
    (found : (compileBatch sources library imports previous).outcomes.find? id = some o) :
    id ∈ (compileBatch sources library imports previous).layers.flatten ∨
      (∃ s ∈ sources, s.id = id ∧ ∃ e, s.build = .error e ∧ o = .error e) ∨
      (∃ cycle, o = .error (.cyclicImport id.path cycle)) ∨
      ∃ dependency, o = .error (.dependencyFailed id.path dependency) := by
  have history : IsHistory _ _ imports previous library _ (lastProgress sources library imports previous) :=
    isHistory_lastProgress distinct
  by_cases isPending : id ∈ (lastProgress sources library imports previous).pending
  · have same : o = _ := Option.some.inj (found.symm.trans (find?_resultOf_of_pending isPending))
    refine .inr (.inr ?_)
    rcases stuckError_cases (stuckIn sources imports (lastProgress sources library imports previous))
      (stuckIn sources imports (lastProgress sources library imports previous)).cycles id with
      ⟨cycle, isCyclic⟩ | ⟨dependency, isDependent⟩
    · exact .inl ⟨cycle, same.trans (congrArg Except.error isCyclic)⟩
    · exact .inr ⟨dependency, same.trans (congrArg Except.error isDependent)⟩
  · have found := (find?_resultOf_of_not_pending isPending).symm.trans found
    cases isCandidate : (candidatesOf sources).contains id with
    | false =>
      rw [history.refused id isCandidate] at found
      exact .inr (.inl ((find?_refusedOf distinct).mp found))
    | true =>
      rcases history.done id isCandidate isPending with inLayers | ⟨d, _, _, outcome⟩
      · exact .inl inLayers
      · exact .inr (.inr (.inr ⟨d.path, Option.some.inj (found.symm.trans outcome)⟩))

end

end Deductions
