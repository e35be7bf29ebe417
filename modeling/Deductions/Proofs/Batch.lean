import Deductions.Batch
import Deductions.Proofs.Library
import Mathlib.Data.List.Find

namespace Deductions

theorem flatten_eq_of_split {α : Type} {ls before after : List (List α)} {l : List α}
    (split : ls = before ++ l :: after) : ls.flatten = before.flatten ++ (l ++ after.flatten) := by
  rw [split, List.flatten_append, List.flatten_cons]

theorem exists_split_of_mem_flatten {α : Type} {a : α} {ls : List (List α)} (member : a ∈ ls.flatten) :
    ∃ before l after, ls = before ++ l :: after ∧ a ∈ l := by
  obtain ⟨l, inside, atL⟩ := List.mem_flatten.mp member
  obtain ⟨before, after, split⟩ := List.append_of_mem inside
  exact ⟨before, l, after, split, atL⟩

namespace Batch

variable (candidates : SortedMap ModuleId Candidate)
  (dependencies : SortedMap ModuleId (List ModuleId)) (imports : ImportTable)
  (previous : Option Snapshot)

def dependenciesOf (id : ModuleId) : List ModuleId := (dependencies.find? id).getD []

/-- The pending modules all of whose dependencies are done. -/
def ready (p : Progress) : List ModuleId :=
  p.pending.filter fun id => (dependenciesOf dependencies id).all p.outcomes.contains

/-- The first dependency of a module that failed. -/
def firstFailed (outcomes : SortedMap ModuleId Outcome) (id : ModuleId) : Option ModuleId :=
  (dependenciesOf dependencies id).find? (failed outcomes)

/-- The modules that a round resolves. -/
def layer (p : Progress) : List ModuleId := (giveUp dependencies p.outcomes (ready dependencies p)).1

/-- One round. -/
def round (p : Progress) : Progress :=
  let resolved := resolveLayer candidates imports previous p.library (layer dependencies p)
  { pending := p.pending.filter fun id => !(ready dependencies p).contains id
    outcomes := resolved.foldl (fun m e => m.insert e.1 e.2)
      (giveUp dependencies p.outcomes (ready dependencies p)).2
    layers := if (layer dependencies p).isEmpty then p.layers else p.layers ++ [layer dependencies p]
    library := (resolved.filterMap fun e => e.2.toOption).foldl
      (fun l m => l.insert m.graph) p.library }

theorem run_succ (fuel : Nat) (p : Progress) :
    run candidates dependencies imports previous (fuel + 1) p =
      if (ready dependencies p).isEmpty then p
      else run candidates dependencies imports previous fuel
        (round candidates dependencies imports previous p) := rfl

/-- What holds at the start and is kept by every round holds at the end. -/
theorem run_induction {motive : Progress → Prop}
    (step : ∀ p, motive p → motive (round candidates dependencies imports previous p))
    (fuel : Nat) {p : Progress} (start : motive p) :
    motive (run candidates dependencies imports previous fuel p) := by
  induction fuel generalizing p with
  | zero => exact start
  | succ fuel ih =>
    rw [run_succ]
    split
    · exact start
    · exact ih (step p start)

variable {candidates dependencies imports previous}

/-- With enough fuel the rounds go on until no module is ready. -/
theorem ready_run {fuel : Nat} {p : Progress} (enough : p.pending.length ≤ fuel) :
    ready dependencies (run candidates dependencies imports previous fuel p) = [] := by
  induction fuel generalizing p with
  | zero =>
    have none : p.pending = [] := List.length_eq_zero_iff.mp (Nat.le_zero.mp enough)
    rw [run, ready, none, List.filter_nil]
  | succ fuel ih =>
    rw [run_succ]
    split
    next empty => exact List.isEmpty_iff.mp empty
    next some =>
      refine ih ?_
      obtain ⟨id, member⟩ := List.exists_mem_of_ne_nil _ (mt List.isEmpty_iff.mpr some)
      have fewer : (round candidates dependencies imports previous p).pending.length < p.pending.length :=
        List.length_filter_lt_length_iff_exists.mpr
          ⟨id, (List.mem_filter.mp member).1, by simpa using member⟩
      omega

theorem failed_insert_of_ne {outcomes : SortedMap ModuleId Outcome} {id d : ModuleId}
    (o : Outcome) (other : d ≠ id) : failed (outcomes.insert id o) d = failed outcomes d := by
  rw [failed, failed, SortedMap.find?_insert_of_ne _ _ other]

theorem firstFailed_insert {outcomes : SortedMap ModuleId Outcome} {id k : ModuleId} (o : Outcome)
    (independent : id ∉ dependenciesOf dependencies k) :
    firstFailed dependencies (outcomes.insert id o) k = firstFailed dependencies outcomes k :=
  List.find?_congr fun _ member => failed_insert_of_ne o fun same => independent (same ▸ member)

/-- No module of the list depends on one of the list. -/
def AreSettled (dependencies : SortedMap ModuleId (List ModuleId)) (ids : List ModuleId) : Prop :=
  ∀ id ∈ ids, ∀ d ∈ dependenciesOf dependencies id, d ∉ ids

theorem AreSettled.tail {id : ModuleId} {ids : List ModuleId}
    (settled : AreSettled dependencies (id :: ids)) : AreSettled dependencies ids :=
  fun k member d isDependency inside =>
    settled k (List.mem_cons_of_mem _ member) d isDependency (List.mem_cons_of_mem _ inside)

theorem AreSettled.independent {id : ModuleId} {ids : List ModuleId}
    (settled : AreSettled dependencies (id :: ids)) : ∀ k ∈ ids, id ∉ dependenciesOf dependencies k :=
  fun k member isDependency =>
    settled k (List.mem_cons_of_mem _ member) id isDependency List.mem_cons_self

theorem giveUp_fst {ids : List ModuleId} (settled : AreSettled dependencies ids)
    (outcomes : SortedMap ModuleId Outcome) :
    (giveUp dependencies outcomes ids).1 =
      ids.filter fun id => (firstFailed dependencies outcomes id).isNone := by
  induction ids generalizing outcomes with
  | nil => rfl
  | cons id ids ih =>
    have independent := settled.independent
    rw [giveUp]
    split
    next d found =>
      have found : firstFailed dependencies outcomes id = some d := found
      rw [ih settled.tail, List.filter_cons_of_neg (by simp [found])]
      -- giving this one up decides nothing about the others, which do not depend on it
      refine List.filter_congr fun k member => ?_
      rw [firstFailed_insert _ (independent k member)]
    next none =>
      have none : firstFailed dependencies outcomes id = Option.none := none
      rw [List.filter_cons_of_pos (by simp [none]), ← ih settled.tail]

theorem find?_giveUp_of_not_failed {ids : List ModuleId} (settled : AreSettled dependencies ids)
    {outcomes : SortedMap ModuleId Outcome} {k : ModuleId}
    (kept : k ∈ ids → firstFailed dependencies outcomes k = none) :
    (giveUp dependencies outcomes ids).2.find? k = outcomes.find? k := by
  induction ids generalizing outcomes with
  | nil => rfl
  | cons id ids ih =>
    have independent := settled.independent
    rw [giveUp]
    split
    next d found =>
      have found : firstFailed dependencies outcomes id = some d := found
      have other : k ≠ id := by
        rintro rfl
        rw [kept List.mem_cons_self] at found
        cases found
      refine (ih settled.tail fun member => ?_).trans (SortedMap.find?_insert_of_ne _ _ other)
      rw [firstFailed_insert _ (independent k member)]
      exact kept (List.mem_cons_of_mem _ member)
    · exact ih settled.tail fun member => kept (List.mem_cons_of_mem _ member)

theorem find?_giveUp_of_failed {ids : List ModuleId} (settled : AreSettled dependencies ids)
    {outcomes : SortedMap ModuleId Outcome} {k d : ModuleId} (member : k ∈ ids)
    (failed : firstFailed dependencies outcomes k = some d) :
    (giveUp dependencies outcomes ids).2.find? k =
      some (.error (.dependencyFailed k.path d.path)) := by
  induction ids generalizing outcomes with
  | nil => cases member
  | cons id ids ih =>
    have independent := settled.independent
    rw [giveUp]
    split
    next dependency found =>
      have found : firstFailed dependencies outcomes id = some dependency := found
      by_cases later : k ∈ ids
      · exact ih settled.tail later (by rwa [firstFailed_insert _ (independent k later)])
      · obtain rfl : k = id := (List.mem_cons.mp member).resolve_right later
        rw [find?_giveUp_of_not_failed settled.tail (absurd · later), SortedMap.find?_insert_self]
        rw [failed] at found
        cases found
        rfl
    next none =>
      have none : firstFailed dependencies outcomes id = Option.none := none
      have other : k ≠ id := by
        rintro rfl
        rw [failed] at none
        cases none
      exact ih settled.tail ((List.mem_cons.mp member).resolve_left other) failed

/-- Nothing that a module which is not given up depends on has failed. -/
theorem mem_giveUp {ids : List ModuleId} {outcomes : SortedMap ModuleId Outcome} {id : ModuleId}
    (member : id ∈ (giveUp dependencies outcomes ids).1) :
    id ∈ ids ∧ ∀ d ∈ dependenciesOf dependencies id, failed outcomes d = false := by
  induction ids generalizing outcomes with
  | nil => cases member
  | cons id' ids ih =>
    rw [giveUp] at member
    split at member
    next dependency _ =>
      obtain ⟨inside, succeeded⟩ := ih member
      refine ⟨List.mem_cons_of_mem _ inside, fun d isDependency => ?_⟩
      have stillSucceeded := succeeded d isDependency
      by_cases same : d = id'
      · subst same
        rw [failed, SortedMap.find?_insert_self] at stillSucceeded
        cases stillSucceeded
      · rwa [failed_insert_of_ne _ same] at stillSucceeded
    next none =>
      rcases List.mem_cons.mp member with rfl | later
      · exact ⟨List.mem_cons_self, fun d isDependency =>
          Bool.eq_false_iff.mpr (List.find?_eq_none.mp none d isDependency)⟩
      · exact (ih later).imp_left (List.mem_cons_of_mem _)

/-- Giving up leaves an outcome as it is, or makes it an error. -/
theorem find?_giveUp_cases {ids : List ModuleId} {outcomes : SortedMap ModuleId Outcome} (k : ModuleId) :
    (giveUp dependencies outcomes ids).2.find? k = outcomes.find? k ∨
      k ∈ ids ∧ ∃ e, (giveUp dependencies outcomes ids).2.find? k = some (.error e) := by
  induction ids generalizing outcomes with
  | nil => exact .inl rfl
  | cons id ids ih =>
    rw [giveUp]
    split
    next dependency _ =>
      have later : (giveUp dependencies (outcomes.insert id (.error (.dependencyFailed id.path dependency.path)))
        ids).2.find? k = _ ∨ _ := ih
      rcases later with same | ⟨inside, refused⟩
      · by_cases isFirst : k = id
        · subst isFirst
          rw [SortedMap.find?_insert_self] at same
          exact .inr ⟨List.mem_cons_self, _, same⟩
        · rw [SortedMap.find?_insert_of_ne _ _ isFirst] at same
          exact .inl same
      · exact .inr ⟨List.mem_cons_of_mem _ inside, refused⟩
    next none => exact ih.imp_right fun ⟨inside, refused⟩ => ⟨List.mem_cons_of_mem _ inside, refused⟩

/-- The graph of a module that compiled. -/
def graphOf? (outcomes : SortedMap ModuleId Outcome) (id : ModuleId) : Option ModuleGraph :=
  ((outcomes.find? id).bind fun o => o.toOption).map ResolvedModule.graph

theorem toOption_eq_some_iff {ε α : Type} {e : Except ε α} {a : α} : e.toOption = some a ↔ e = .ok a := by
  cases e <;> simp [Except.toOption]

theorem graphOf?_eq_some_iff {outcomes : SortedMap ModuleId Outcome} {id : ModuleId} {g : ModuleGraph} :
    graphOf? outcomes id = some g ↔ ∃ m, outcomes.find? id = some (.ok m) ∧ m.graph = g := by
  simp [graphOf?, Option.bind_eq_some_iff, toOption_eq_some_iff]

/-- The library with the graphs of those modules that compiled. -/
def libraryWith (start : ModuleLibrary) (outcomes : SortedMap ModuleId Outcome) (ids : List ModuleId) :
    ModuleLibrary := (ids.filterMap (graphOf? outcomes)).foldl ModuleLibrary.insert start

theorem graphOf?_congr {outcomes outcomes' : SortedMap ModuleId Outcome} {id : ModuleId}
    (same : outcomes'.find? id = outcomes.find? id) : graphOf? outcomes' id = graphOf? outcomes id := by
  rw [graphOf?, graphOf?, same]

theorem libraryWith_congr {outcomes outcomes' : SortedMap ModuleId Outcome} {ids : List ModuleId}
    (start : ModuleLibrary) (same : ∀ id ∈ ids, outcomes'.find? id = outcomes.find? id) :
    libraryWith start outcomes' ids = libraryWith start outcomes ids := by
  rw [libraryWith, libraryWith,
    List.filterMap_congr fun id member => graphOf?_congr (same id member)]

theorem libraryWith_append (start : ModuleLibrary) (outcomes : SortedMap ModuleId Outcome)
    (ids ids' : List ModuleId) : libraryWith start outcomes (ids ++ ids') =
      libraryWith (libraryWith start outcomes ids) outcomes ids' := by
  rw [libraryWith, List.filterMap_append, List.foldl_append]
  rfl

variable (candidates dependencies imports previous) in
/-- What is known of a batch between two rounds: each module done was refused at once, given up for a
dependency, or resolved against the library with all modules of the layers before its own. -/
structure IsHistory (start : ModuleLibrary) (refused : SortedMap ModuleId Outcome) (p : Progress) :
    Prop where
  pending : ∀ id ∈ p.pending, candidates.contains id = true ∧ p.outcomes.find? id = none
  distinctPending : p.pending.Nodup
  refused : ∀ id, candidates.contains id = false → p.outcomes.find? id = refused.find? id
  done : ∀ id, candidates.contains id = true → id ∉ p.pending → id ∈ p.layers.flatten ∨
    ∃ d ∈ dependenciesOf dependencies id, failed p.outcomes d = true ∧
      p.outcomes.find? id = some (.error (.dependencyFailed id.path d.path))
  layered : ∀ before layer after, p.layers = before ++ layer :: after → ∀ id ∈ layer,
    (∀ d ∈ dependenciesOf dependencies id, d ∈ before.flatten ∧ failed p.outcomes d = false) ∧
    ∃ c, candidates.find? id = some c ∧ p.outcomes.find? id =
      some (c.compile ⟨libraryWith start p.outcomes before.flatten, imports, previous⟩)
  distinct : p.layers.flatten.Nodup
  library : p.library = libraryWith start p.outcomes p.layers.flatten

variable {start : ModuleLibrary} {refused : SortedMap ModuleId Outcome} {p : Progress}

theorem IsHistory.settled
    (history : IsHistory candidates dependencies imports previous start refused p) :
    AreSettled dependencies (ready dependencies p) := by
  intro id member d isDependency inside
  have finished := List.all_eq_true.mp (List.mem_filter.mp member).2 d isDependency
  rw [SortedMap.contains, (history.pending d (List.mem_filter.mp inside).1).2] at finished
  cases finished

theorem IsHistory.mem_layer
    (history : IsHistory candidates dependencies imports previous start refused p) {id : ModuleId} :
    id ∈ layer dependencies p ↔
      id ∈ ready dependencies p ∧ firstFailed dependencies p.outcomes id = none := by
  rw [layer, giveUp_fst history.settled, List.mem_filter, Option.isNone_iff_eq_none]

theorem mem_resolveLayer {library : ModuleLibrary} {ids : List ModuleId} {e : ModuleId × Outcome} :
    e ∈ resolveLayer candidates imports previous library ids ↔ e.1 ∈ ids ∧
      ∃ c, candidates.find? e.1 = some c ∧ e.2 = c.compile ⟨library, imports, previous⟩ := by
  rw [resolveLayer, List.mem_filterMap]
  constructor
  · rintro ⟨id, member, same⟩
    obtain ⟨c, found, rfl⟩ := Option.map_eq_some_iff.mp same
    exact ⟨member, c, found, rfl⟩
  · rintro ⟨member, c, found, same⟩
    refine ⟨e.1, member, Option.map_eq_some_iff.mpr ⟨c, found, ?_⟩⟩
    rw [← same]

theorem mem_pending_of_mem_layer {id : ModuleId} (member : id ∈ layer dependencies p) : id ∈ p.pending :=
  (List.mem_filter.mp (mem_giveUp member).1).1

theorem find?_round_of_mem_layer {id : ModuleId} {c : Candidate} (member : id ∈ layer dependencies p)
    (found : candidates.find? id = some c) : (round candidates dependencies imports previous p).outcomes.find? id =
      some (c.compile ⟨p.library, imports, previous⟩) := by
  refine SortedMap.find?_foldl_insert ?_ ?_
  · intro e resolved same
    obtain ⟨_, c', found', value⟩ := mem_resolveLayer.mp resolved
    rw [same, found] at found'
    cases found'
    exact value
  · exact List.mem_map_of_mem (mem_resolveLayer (e := (id, _)) |>.mpr ⟨member, c, found, rfl⟩)

theorem IsHistory.find?_round_of_mem_layer
    (history : IsHistory candidates dependencies imports previous start refused p) {id : ModuleId}
    (member : id ∈ layer dependencies p) : ∃ c, candidates.find? id = some c ∧
      (round candidates dependencies imports previous p).outcomes.find? id =
        some (c.compile ⟨p.library, imports, previous⟩) := by
  obtain ⟨c, found⟩ := Option.isSome_iff_exists.mp (history.pending id (mem_pending_of_mem_layer member)).1
  exact ⟨c, found, Batch.find?_round_of_mem_layer member found⟩

theorem find?_round_of_not_mem_layer {id : ModuleId} (other : id ∉ layer dependencies p) :
    (round candidates dependencies imports previous p).outcomes.find? id =
      (giveUp dependencies p.outcomes (ready dependencies p)).2.find? id := by
  refine SortedMap.find?_foldl_insert_of_not_mem fun member => other ?_
  obtain ⟨e, resolved, rfl⟩ := List.mem_map.mp member
  exact (mem_resolveLayer.mp resolved).1

/-- A round changes no outcome but those of the modules that are ready. -/
theorem find?_round_of_not_ready {id : ModuleId} (other : id ∉ ready dependencies p) :
    (round candidates dependencies imports previous p).outcomes.find? id = p.outcomes.find? id := by
  rw [find?_round_of_not_mem_layer fun member => other (mem_giveUp member).1]
  exact (find?_giveUp_cases id).resolve_right fun ⟨isReady, _⟩ => other isReady

/-- A module that is not pending keeps its outcome. -/
theorem find?_round_of_not_pending {id : ModuleId} (done : id ∉ p.pending) :
    (round candidates dependencies imports previous p).outcomes.find? id = p.outcomes.find? id :=
  find?_round_of_not_ready fun member => done (List.mem_filter.mp member).1

theorem IsHistory.find?_round_of_failed
    (history : IsHistory candidates dependencies imports previous start refused p) {id d : ModuleId}
    (member : id ∈ ready dependencies p)
    (found : firstFailed dependencies p.outcomes id = some d) :
    (round candidates dependencies imports previous p).outcomes.find? id =
      some (.error (.dependencyFailed id.path d.path)) := by
  rw [find?_round_of_not_mem_layer, find?_giveUp_of_failed history.settled member found]
  intro inLayer
  rw [(history.mem_layer.mp inLayer).2] at found
  cases found

/-- A module that depends on a pending one stays pending. -/
theorem IsHistory.mem_pending_round
    (history : IsHistory candidates dependencies imports previous start refused p) {id d : ModuleId}
    (isPending : id ∈ p.pending) (isDependency : d ∈ dependenciesOf dependencies id)
    (stillPending : d ∈ p.pending) :
    id ∈ (round candidates dependencies imports previous p).pending := by
  have notReady : id ∉ ready dependencies p := by
    intro isReady
    have finished := List.all_eq_true.mp (List.mem_filter.mp isReady).2 d isDependency
    rw [SortedMap.contains, (history.pending d stillPending).2] at finished
    cases finished
  exact List.mem_filter.mpr ⟨isPending, by simpa using notReady⟩

theorem flatten_layers_round : (round candidates dependencies imports previous p).layers.flatten =
    p.layers.flatten ++ layer dependencies p := by
  dsimp only [round]
  split
  next empty => rw [List.isEmpty_iff.mp empty, List.append_nil]
  · rw [List.flatten_append, List.flatten_singleton]

theorem IsHistory.of_mem_layers
    (history : IsHistory candidates dependencies imports previous start refused p) {id : ModuleId}
    (member : id ∈ p.layers.flatten) : id ∉ p.pending := by
  intro isPending
  obtain ⟨before, layer, after, split, inLayer⟩ := exists_split_of_mem_flatten member
  obtain ⟨_, c, _, outcome⟩ := history.layered before layer after split id inLayer
  rw [(history.pending id isPending).2] at outcome
  cases outcome

theorem IsHistory.not_pending_of_failed
    (history : IsHistory candidates dependencies imports previous start refused p) {id : ModuleId}
    (isFailed : failed p.outcomes id = true) : id ∉ p.pending := by
  intro isPending
  rw [failed, (history.pending id isPending).2] at isFailed
  cases isFailed

theorem failed_round {id : ModuleId} (done : id ∉ p.pending) :
    failed (round candidates dependencies imports previous p).outcomes id = failed p.outcomes id := by
  rw [failed, failed, find?_round_of_not_pending done]

/-- What a ready module depends on has compiled, if nothing of it failed. -/
theorem IsHistory.compiled_of_mem_layer
    (history : IsHistory candidates dependencies imports previous start refused p)
    (refusedFail : ∀ id o, refused.find? id = some o → o.isError = true) {id : ModuleId}
    (member : id ∈ layer dependencies p) : ∀ d ∈ dependenciesOf dependencies id,
      d ∈ p.layers.flatten ∧ failed p.outcomes d = false := by
  intro d isDependency
  obtain ⟨isReady, noneFailed⟩ := history.mem_layer.mp member
  have succeeded : failed p.outcomes d = false := by
    simpa using List.find?_eq_none.mp noneFailed d isDependency
  refine ⟨?_, succeeded⟩
  have finished := List.all_eq_true.mp (List.mem_filter.mp isReady).2 d isDependency
  obtain ⟨o, found⟩ := Option.isSome_iff_exists.mp finished
  have isOk : o.isError = false := by simpa [failed, found] using succeeded
  cases isCandidate : candidates.contains d with
  | false =>
    rw [history.refused d isCandidate] at found
    rw [refusedFail d o found] at isOk
    cases isOk
  | true =>
    have notPending : d ∉ p.pending := by
      intro isPending
      rw [(history.pending d isPending).2] at found
      cases found
    refine (history.done d isCandidate notPending).resolve_right ?_
    rintro ⟨_, _, _, outcome⟩
    rw [found] at outcome
    cases outcome
    cases isOk

/-- The library of a round is that of its layers, if it was before and the outcomes it is made of stay. -/
theorem library_round (isCandidate : ∀ id ∈ p.pending, candidates.contains id = true)
    (before : p.library = libraryWith start p.outcomes p.layers.flatten)
    (stays : ∀ id ∈ p.layers.flatten, (round candidates dependencies imports previous p).outcomes.find? id =
      p.outcomes.find? id) :
    (round candidates dependencies imports previous p).library =
      libraryWith start (round candidates dependencies imports previous p).outcomes
        (round candidates dependencies imports previous p).layers.flatten := by
  have old : p.library = libraryWith start
      (round candidates dependencies imports previous p).outcomes p.layers.flatten := by
    rw [before]
    exact (libraryWith_congr start stays).symm
  have new : ((resolveLayer candidates imports previous p.library (layer dependencies p)).filterMap
      fun e => e.2.toOption).map ResolvedModule.graph = (layer dependencies p).filterMap
        (graphOf? (round candidates dependencies imports previous p).outcomes) := by
    rw [resolveLayer, List.filterMap_filterMap, List.map_filterMap]
    refine List.filterMap_congr fun id member => ?_
    obtain ⟨c, found⟩ := Option.isSome_iff_exists.mp (isCandidate id (mem_pending_of_mem_layer member))
    rw [graphOf?, find?_round_of_mem_layer member found, show candidates.find? id = some c from found]
    rfl
  rw [flatten_layers_round, libraryWith_append, ← old, libraryWith, ← new, List.foldl_map]
  rfl

/-- A layer of the next round is one of before or the last one. -/
theorem layers_round_cases {before after : List (List ModuleId)} {ids : List ModuleId}
    (split : (round candidates dependencies imports previous p).layers = before ++ ids :: after) :
    (∃ rest, p.layers = before ++ ids :: rest) ∨ before = p.layers ∧ ids = layer dependencies p := by
  dsimp only [round] at split
  split at split
  · exact .inl ⟨after, split⟩
  · rcases List.eq_nil_or_concat after with rfl | ⟨rest, last, rfl⟩
    · obtain ⟨same, singleton⟩ := List.append_inj' split rfl
      exact .inr ⟨same.symm, (List.cons.inj singleton).1.symm⟩
    · rw [List.concat_eq_append, ← List.cons_append, ← List.append_assoc] at split
      exact .inl ⟨rest, (List.append_inj' split rfl).1⟩

theorem IsHistory.next (refusedFail : ∀ id o, refused.find? id = some o → o.isError = true)
    (history : IsHistory candidates dependencies imports previous start refused p) :
    IsHistory candidates dependencies imports previous start refused
      (round candidates dependencies imports previous p) where
  pending := by
    intro id member
    obtain ⟨isPending, notReady⟩ := List.mem_filter.mp member
    have notReady : id ∉ ready dependencies p := by simpa using notReady
    rw [find?_round_of_not_ready notReady]
    exact history.pending id isPending
  distinctPending := history.distinctPending.filter _
  refused := by
    intro id noCandidate
    rw [find?_round_of_not_pending]
    · exact history.refused id noCandidate
    · intro isPending
      rw [(history.pending id isPending).1] at noCandidate
      cases noCandidate
  done := by
    intro id isCandidate notPending
    rw [flatten_layers_round, List.mem_append]
    by_cases isReady : id ∈ ready dependencies p
    · cases found : firstFailed dependencies p.outcomes id with
      | none => exact .inl (.inr (history.mem_layer.mpr ⟨isReady, found⟩))
      | some d =>
        have isFailed : failed p.outcomes d = true := List.find?_some found
        refine .inr ⟨d, List.mem_of_find?_eq_some found, ?_, history.find?_round_of_failed isReady found⟩
        rw [failed_round (history.not_pending_of_failed isFailed), isFailed]
    · have wasDone : id ∉ p.pending := fun isPending =>
        notPending (List.mem_filter.mpr ⟨isPending, by simpa using isReady⟩)
      rcases history.done id isCandidate wasDone with inLayers | ⟨d, isDependency, isFailed, outcome⟩
      · exact .inl (.inl inLayers)
      · refine .inr ⟨d, isDependency, ?_, ?_⟩
        · rw [failed_round (history.not_pending_of_failed isFailed), isFailed]
        · rw [find?_round_of_not_pending wasDone, outcome]
  layered := by
    intro before ids after split id member
    rcases layers_round_cases split with ⟨rest, old⟩ | ⟨rfl, rfl⟩
    · have done : ∀ k ∈ p.layers.flatten, k ∉ p.pending := fun k => history.of_mem_layers
      rw [flatten_eq_of_split old] at done
      have earlier := fun k inside => done k (List.mem_append_left _ inside)
      obtain ⟨compiled, c, found, outcome⟩ := history.layered before ids rest old id member
      refine ⟨fun d isDependency => ?_, c, found, ?_⟩
      · obtain ⟨inside, succeeded⟩ := compiled d isDependency
        exact ⟨inside, (failed_round (earlier d inside)).trans succeeded⟩
      · rw [find?_round_of_not_pending, outcome, libraryWith_congr]
        · exact fun k inside => (find?_round_of_not_pending (earlier k inside)).symm
        · exact done id (List.mem_append_right _ (List.mem_append_left _ member))
    · obtain ⟨c, found, outcome⟩ := history.find?_round_of_mem_layer member
      refine ⟨fun d isDependency => ?_, c, found, ?_⟩
      · obtain ⟨inside, succeeded⟩ := history.compiled_of_mem_layer refusedFail member d isDependency
        exact ⟨inside, (failed_round (history.of_mem_layers inside)).trans succeeded⟩
      · rw [outcome, history.library, libraryWith_congr]
        exact fun k inside =>
          (find?_round_of_not_pending (history.of_mem_layers inside)).symm
  distinct := by
    rw [flatten_layers_round, List.nodup_append]
    refine ⟨history.distinct, ?_, ?_⟩
    · rw [layer, giveUp_fst history.settled]
      exact (history.distinctPending.filter _).filter _
    · rintro id old _ new rfl
      exact history.of_mem_layers old (List.mem_filter.mp (history.mem_layer.mp new).1).1
  library := library_round (fun id member => (history.pending id member).1) history.library
    fun id member => find?_round_of_not_pending (history.of_mem_layers member)

/-- A module that depends on nothing is resolved in the first layer of all. -/
theorem IsHistory.first_round
    (history : IsHistory candidates dependencies imports previous start refused p) {id : ModuleId}
    (independent : dependenciesOf dependencies id = [])
    (first : id ∈ p.pending ∧ p.layers = [] ∨ ∃ ids rest, p.layers = ids :: rest ∧ id ∈ ids) :
    ∃ ids rest, (round candidates dependencies imports previous p).layers = ids :: rest ∧ id ∈ ids := by
  dsimp only [round]
  rcases first with ⟨isPending, none⟩ | ⟨ids, rest, split, member⟩
  · have isReady : id ∈ ready dependencies p := by
      refine List.mem_filter.mpr ⟨isPending, ?_⟩
      rw [independent]
      rfl
    have noneFailed : firstFailed dependencies p.outcomes id = Option.none := by
      rw [firstFailed, independent]
      rfl
    have inLayer := history.mem_layer.mpr ⟨isReady, noneFailed⟩
    rw [List.isEmpty_eq_false_iff.mpr (List.ne_nil_of_mem inLayer), none]
    exact ⟨_, [], rfl, inLayer⟩
  · split
    · exact ⟨ids, rest, split, member⟩
    · exact ⟨ids, _, by rw [split]; rfl, member⟩

end Batch

end Deductions
