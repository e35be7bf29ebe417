import Deductions.Proofs.Cycle
import Mathlib.Data.List.Cycle

namespace Deductions

theorem exists_dropWhile_eq {α : Type} [DecidableEq α] {l : List α} {a : α} (member : a ∈ l) :
    ∃ before after, l = before ++ a :: after ∧ l.dropWhile (· ≠ a) = a :: after := by
  obtain ⟨before, after, rfl, notBefore⟩ := List.eq_append_cons_of_mem member
  refine ⟨before, after, rfl, ?_⟩
  rw [List.dropWhile_append_of_pos, List.dropWhile_cons_of_neg]
  · simp
  · rintro b inside
    rw [decide_eq_true_eq]
    rintro rfl
    exact notBefore inside

namespace Relation

section

variable {κ : Type} [Ord κ]

theorem least_mem (first : κ) (rest : List κ) : least first rest ∈ first :: rest := by
  induction rest generalizing first with
  | nil => exact List.mem_singleton_self _
  | cons a rest ih =>
    rw [least, List.foldl_cons, ← least]
    rcases List.mem_cons.mp (ih _) with same | member
    · rw [same]
      split
      · exact List.mem_cons_of_mem _ List.mem_cons_self
      · exact List.mem_cons_self
    · exact List.mem_cons_of_mem _ (List.mem_cons_of_mem _ member)

/-- A list of members is closed by turning it and repeating the member that comes first then. -/
theorem exists_close_eq [DecidableEq κ] {members : List κ} (nonempty : members ≠ []) :
    ∃ start rest, close members = start :: (rest ++ [start]) ∧ (start :: rest) ~r members := by
  obtain ⟨first, others, rfl⟩ := List.exists_cons_of_ne_nil nonempty
  obtain ⟨_, after, _, turned⟩ := exists_dropWhile_eq (least_mem first others)
  have whole := List.takeWhile_append_dropWhile (p := (· ≠ least first others)) (l := first :: others)
  rw [turned] at whole
  refine ⟨least first others, after ++ (first :: others).takeWhile (· ≠ least first others), ?_, ?_⟩
  · rw [close, turned]
    rfl
  · nth_rewrite 2 [← whole]
    rw [← List.cons_append]
    exact List.isRotated_append

theorem mem_close [DecidableEq κ] {members : List κ} {a : κ} (member : a ∈ members) : a ∈ close members := by
  obtain ⟨start, rest, closed, turned⟩ := exists_close_eq (List.ne_nil_of_mem member)
  rw [closed, ← List.cons_append]
  exact List.mem_append_left _ (turned.mem_iff.mpr member)

/-- The members of a cycle in order: each is followed by the next, the last by the first, and none comes
twice. -/
structure IsRound (r : Relation κ) (members : List κ) : Prop where
  nonempty : members ≠ []
  distinct : members.Nodup
  linked : Cycle.Chain r.Succeeds members

/-- A chain that leads to a member of its own closes there. -/
theorem isRound_dropWhile [DecidableEq κ] {r : Relation κ} {stack : List κ} {a : κ}
    (linked : (stack ++ [a]).IsChain r.Succeeds) (distinct : stack.Nodup) (member : a ∈ stack) :
    r.IsRound (stack.dropWhile (· ≠ a)) := by
  obtain ⟨before, after, rfl, closes⟩ := exists_dropWhile_eq member
  rw [List.append_assoc] at linked
  rw [closes]
  exact ⟨List.cons_ne_nil _ _, distinct.of_append_right, linked.right_of_append⟩

end

section

variable {κ : Type} [Ord κ] [Std.TransOrd κ] [DecidableEq κ]

/-- All that a search has found are cycles. -/
def Search.IsSound (r : Relation κ) (s : Search κ) : Prop :=
  ∀ f ∈ s.found, ∃ members, r.IsRound members ∧ f = (SortedSet.ofList members, close members)

variable {r : Relation κ} {s : Search κ}

theorem Search.IsSound.record (sound : s.IsSound r) {members : List κ} (round : r.IsRound members) :
    (s.record members).IsSound r := by
  unfold Search.record
  dsimp only
  split
  · exact sound
  · exact List.forall_mem_append.mpr ⟨sound, List.forall_mem_singleton.mpr ⟨members, round, rfl⟩⟩

theorem Search.IsSound.search {fuel : Nat} {stack : List κ} {a : κ} (sound : s.IsSound r)
    (linked : (stack ++ [a]).IsChain r.Succeeds) (distinct : stack.Nodup) : (r.search fuel stack s a).IsSound r := by
  -- only what is not on the stack is put there, and only after what it succeeds
  induction fuel generalizing stack s a with
  | zero => exact sound
  | succ fuel ih =>
    rw [Relation.search]
    split
    next closes => exact sound.record (isRound_dropWhile linked distinct (List.contains_iff_mem.mp closes))
    next fresh =>
      split
      · exact sound
      · have longer : (stack ++ [a]).Nodup := List.nodup_append_comm.mp (by simpa [distinct] using fresh)
        refine List.foldlRecOn _ _ sound fun s sound b next => ih sound ?_ longer
        rw [List.append_assoc]
        exact List.isChain_split.mpr ⟨linked, List.isChain_pair.mpr next⟩

/-- What a search from every element comes to. -/
def searched (r : Relation κ) : Search κ := r.keys.foldl (r.search (SortedMap.size r + 2) []) {}

theorem isSound_searched (r : Relation κ) : r.searched.IsSound r :=
  List.foldlRecOn _ _ (fun _ found => nomatch found) fun _ sound a _ => sound.search (List.isChain_singleton a) .nil

theorem mem_cycles_iff {cycle : List κ} : cycle ∈ r.cycles ↔
    ∃ members, r.IsRound members ∧ (SortedSet.ofList members, close members) ∈ r.searched.found ∧
      cycle = close members := by
  rw [cycles, List.mem_mergeSort, List.mem_map]
  constructor
  · rintro ⟨f, found, rfl⟩
    obtain ⟨members, round, rfl⟩ := r.isSound_searched f found
    exact ⟨members, round, found, rfl⟩
  · rintro ⟨members, _, found, rfl⟩
    exact ⟨_, found, rfl⟩

/-- A list of the search leads from its first member over at least one step back to it, and meets no other
member twice. -/
theorem of_mem_cycles {cycle : List κ} (member : cycle ∈ r.cycles) : ∃ start rest,
    cycle = start :: (rest ++ [start]) ∧ (start :: rest).Nodup ∧ cycle.IsChain r.Succeeds := by
  obtain ⟨members, round, _, rfl⟩ := mem_cycles_iff.mp member
  obtain ⟨start, rest, closed, turned⟩ := exists_close_eq round.nonempty
  have linked := round.linked
  rw [← Cycle.coe_eq_coe.mpr turned, Cycle.chain_coe_cons] at linked
  exact ⟨start, rest, closed, turned.nodup_iff.mpr round.distinct, closed ▸ linked⟩

end

section

variable {κ : Type} [Ord κ]

theorem mem_keys_of_succeeds [Std.TransOrd κ] [Std.LawfulEqOrd κ] {r : Relation κ} {a b : κ}
    (next : r.Succeeds a b) : a ∈ r.keys := by
  rw [← SortedMap.contains_iff, SortedMap.contains, Option.isSome_iff_ne_none]
  intro none
  rw [Succeeds, successors, none] at next
  cases next

/-- What leads on somewhere are keys, of which there are only so many. -/
theorem length_le_size [Std.TransOrd κ] [Std.LawfulEqOrd κ] {r : Relation κ} {stack : List κ} {a : κ}
    (linked : (stack ++ [a]).IsChain r.Succeeds) (distinct : stack.Nodup) : stack.length ≤ SortedMap.size r := by
  have inKeys : stack ⊆ r.keys := fun b member => by
    obtain ⟨before, after, rfl⟩ := List.append_of_mem member
    rw [List.append_assoc, List.cons_append] at linked
    obtain ⟨c, rest, same⟩ : ∃ c rest, after ++ [a] = c :: rest := List.exists_cons_of_ne_nil (by simp)
    rw [same] at linked
    exact mem_keys_of_succeeds (List.isChain_cons_cons.mp linked.right_of_append).1
  rw [SortedMap.size, ← List.length_map (f := Prod.fst)]
  exact (List.subperm_of_subset distinct inKeys).length_le

/-- Both elements are members of one cycle that was found. -/
def Search.Joins (s : Search κ) (a b : κ) : Prop :=
  ∃ f ∈ s.found, f.1.contains a = true ∧ f.1.contains b = true

/-- A step that is part of no cycle that was found. -/
def Search.Leads (r : Relation κ) (s : Search κ) (a b : κ) : Prop := r.Succeeds a b ∧ ¬ s.Joins a b

/-- The element was visited and left again. -/
def Search.HasFinished (s : Search κ) (stack : List κ) (a : κ) : Prop := s.visited.contains a = true ∧ a ∉ stack

/-- The element was finished, or is where the stack closes to a cycle that was found. -/
def Search.HasSettled (s : Search κ) (stack : List κ) (a : κ) : Prop :=
  s.HasFinished stack a ∨ a ∈ stack ∧ ∀ last, stack.getLast? = some last → s.Joins last a

/-- The steps from what is finished that are part of no cycle that was found lead to what is finished, and
never round. -/
structure Search.IsThorough (r : Relation κ) (stack : List κ) (s : Search κ) : Prop where
  closed : ∀ a b, s.HasFinished stack a → s.Leads r a b → s.HasFinished stack b
  straight : ∀ a, s.HasFinished stack a → ¬ Relation.TransGen (s.Leads r) a a

/-- What a search keeps of its state. -/
structure Search.Extends (s s' : Search κ) : Prop where
  visited : ∀ a, s.visited.contains a = true → s'.visited.contains a = true
  found : s.found ⊆ s'.found

theorem Search.Extends.refl (s : Search κ) : s.Extends s := ⟨fun _ => id, List.Subset.refl _⟩

theorem Search.Extends.trans {s s' s'' : Search κ} (first : s.Extends s') (later : s'.Extends s'') : s.Extends s'' :=
  ⟨fun a => later.visited a ∘ first.visited a, List.Subset.trans first.found later.found⟩

theorem Search.Extends.hasSettled {s s' : Search κ} (more : s.Extends s') {stack : List κ} {a : κ}
    (settled : s.HasSettled stack a) : s'.HasSettled stack a := by
  rcases settled with ⟨visited, outside⟩ | ⟨inside, joined⟩
  · exact .inl ⟨more.visited a visited, outside⟩
  · refine .inr ⟨inside, fun last isLast => ?_⟩
    obtain ⟨f, found, members⟩ := joined last isLast
    exact ⟨f, more.found found, members⟩

/-- An element is left when all that succeeds it is settled. -/
theorem Search.IsThorough.leave {r : Relation κ} {s : Search κ} {stack : List κ} {a : κ}
    (thorough : s.IsThorough r (stack ++ [a])) (outside : a ∉ stack)
    (settled : ∀ b, r.Succeeds a b → s.HasSettled (stack ++ [a]) b) : s.IsThorough r stack := by
  have next : ∀ b, s.Leads r a b → s.HasFinished (stack ++ [a]) b := by
    rintro b ⟨next, apart⟩
    exact (settled b next).resolve_right fun ⟨_, joined⟩ => apart (joined a List.getLast?_concat)
  have cases : ∀ {b}, s.HasFinished stack b → b = a ∨ s.HasFinished (stack ++ [a]) b := by
    rintro b ⟨visited, notOn⟩
    refine or_iff_not_imp_left.mpr fun other => ⟨visited, ?_⟩
    simp [notOn, other]
  have fewer : ∀ {b}, s.HasFinished (stack ++ [a]) b → s.HasFinished stack b := by
    rintro b ⟨visited, notOn⟩
    exact ⟨visited, fun member => notOn (List.mem_append_left _ member)⟩
  constructor
  · intro b c finished leads
    rcases cases finished with rfl | before
    · exact fewer (next c leads)
    · exact fewer (thorough.closed b c before leads)
  · intro b finished round
    rcases cases finished with rfl | before
    · -- from the element that is left the way leads to what was finished before, and stays there
      obtain ⟨c, first, back⟩ := Relation.TransGen.head'_iff.mp round
      have stays : ∀ d, Relation.ReflTransGen (s.Leads r) c d → s.HasFinished (stack ++ [b]) d := fun d way => by
        induction way with
        | refl => exact next c first
        | tail _ leads ih => exact thorough.closed _ _ ih leads
      exact (stays b back).2 (List.mem_append_right _ List.mem_cons_self)
    · exact thorough.straight b before round

theorem Search.IsThorough.visit [Std.TransOrd κ] [Std.LawfulEqOrd κ] {r : Relation κ} {s : Search κ}
    {stack : List κ} {a : κ} (thorough : s.IsThorough r stack) (fresh : ¬ s.visited.contains a = true) :
    ({ s with visited := SortedSet.insert s.visited a } : Search κ).IsThorough r (stack ++ [a]) := by
  have same : ∀ {b}, ({ s with visited := SortedSet.insert s.visited a } : Search κ).HasFinished (stack ++ [a]) b
      ↔ s.HasFinished stack b := by
    intro b
    rw [HasFinished, HasFinished, contains_insert, List.mem_append, List.mem_singleton, not_or]
    constructor
    · rintro ⟨visited, outside, other⟩
      exact ⟨visited.resolve_left other, outside⟩
    · rintro ⟨visited, outside⟩
      refine ⟨.inr visited, outside, ?_⟩
      rintro rfl
      exact fresh visited
  constructor
  · intro b c finished leads
    exact same.mpr (thorough.closed b c (same.mp finished) leads)
  · intro b finished round
    exact thorough.straight b (same.mp finished) round

end

section

variable {κ : Type} [Ord κ] [Std.TransOrd κ] [DecidableEq κ] {r : Relation κ} {s : Search κ}

theorem Search.extends_record (members : List κ) : s.Extends (s.record members) := by
  unfold Search.record
  dsimp only
  split
  · exact .refl s
  · exact ⟨fun _ => id, List.subset_append_left ..⟩

theorem Search.visited_record (members : List κ) : (s.record members).visited = s.visited := by
  unfold Search.record
  dsimp only
  split <;> rfl

theorem Search.IsThorough.record {stack : List κ} (thorough : s.IsThorough r stack) (members : List κ) :
    (s.record members).IsThorough r stack := by
  have fewer : ∀ {a b}, (s.record members).Leads r a b → s.Leads r a b := by
    rintro a b ⟨next, apart⟩
    refine ⟨next, fun ⟨f, found, joined⟩ => apart ⟨f, (extends_record members).found found, joined⟩⟩
  have same : ∀ {a}, (s.record members).HasFinished stack a ↔ s.HasFinished stack a := by
    unfold HasFinished
    rw [visited_record]
  constructor
  · intro a b finished leads
    exact same.mpr (thorough.closed a b (same.mp finished) (fewer leads))
  · intro a finished round
    exact thorough.straight a (same.mp finished) (Relation.TransGen.mono (fun _ _ => fewer) _ _ round)

variable [Std.LawfulEqOrd κ]

theorem Search.joins_record {members : List κ} {a b : κ} (left : a ∈ members) (right : b ∈ members) :
    (s.record members).Joins a b := by
  have inKey : ∀ c ∈ members, (SortedSet.ofList members).contains c = true := fun c member =>
    SortedMap.contains_iff.mpr (SortedSet.mem_toList_ofList.mpr member)
  unfold Search.record
  dsimp only
  split
  next old =>
    obtain ⟨f, found, same⟩ := List.any_eq_true.mp old
    exact ⟨f, found, (beq_iff_eq.mp same) ▸ inKey a left, (beq_iff_eq.mp same) ▸ inKey b right⟩
  · exact ⟨_, List.mem_append_right _ List.mem_cons_self, inKey a left, inKey b right⟩

theorem Search.extends_search {fuel : Nat} {stack : List κ} {a : κ} : s.Extends (r.search fuel stack s a) := by
  induction fuel generalizing stack s a with
  | zero => exact .refl s
  | succ fuel ih =>
    rw [Relation.search]
    split
    · exact extends_record _
    · split
      · exact .refl s
      · have visits : s.Extends { s with visited := SortedSet.insert s.visited a } :=
          ⟨fun _ old => contains_insert.mpr (.inr old), List.Subset.refl _⟩
        exact List.foldlRecOn _ _ visits fun _ more _ _ => more.trans ih

theorem Search.extends_foldl {fuel : Nat} {stack l : List κ} : s.Extends (l.foldl (r.search fuel stack) s) :=
  List.foldlRecOn _ _ (.refl s) fun _ more _ _ => more.trans extends_search

theorem Search.IsThorough.foldl {fuel : Nat} {stack : List κ} {l : List κ} (thorough : s.IsThorough r stack)
    (step : ∀ b ∈ l, ∀ s : Search κ, s.IsThorough r stack →
      (r.search fuel stack s b).IsThorough r stack ∧ (r.search fuel stack s b).HasSettled stack b) :
    (l.foldl (r.search fuel stack) s).IsThorough r stack ∧
      ∀ b ∈ l, (l.foldl (r.search fuel stack) s).HasSettled stack b := by
  induction l generalizing s with
  | nil => exact ⟨thorough, nofun⟩
  | cons b l ih =>
    obtain ⟨first, later⟩ := List.forall_mem_cons.mp step
    obtain ⟨thoroughThen, settled⟩ := first s thorough
    obtain ⟨thoroughLast, settledLater⟩ := ih thoroughThen later
    exact ⟨thoroughLast, List.forall_mem_cons.mpr ⟨(extends_foldl (l := l)).hasSettled settled, settledLater⟩⟩

/-- An element that is searched for settles, and nothing is passed over. -/
theorem Search.IsThorough.search {fuel : Nat} {stack : List κ} {a : κ} (thorough : s.IsThorough r stack)
    (linked : (stack ++ [a]).IsChain r.Succeeds) (distinct : stack.Nodup)
    (enough : SortedMap.size r + 2 ≤ fuel + stack.length) :
    (r.search fuel stack s a).IsThorough r stack ∧ (r.search fuel stack s a).HasSettled stack a := by
  induction fuel generalizing stack s a with
  | zero =>
    have few := length_le_size linked distinct
    omega
  | succ fuel ih =>
    rw [Relation.search]
    split
    next closes =>
      have member := List.contains_iff_mem.mp closes
      obtain ⟨before, after, split, members⟩ := exists_dropWhile_eq member
      rw [members]
      refine ⟨thorough.record _, .inr ⟨member, fun last isLast => joins_record ?_ List.mem_cons_self⟩⟩
      rw [split, List.getLast?_append_cons] at isLast
      exact List.mem_of_getLast? isLast
    next fresh =>
      have outside : a ∉ stack := fun member => fresh (List.contains_iff_mem.mpr member)
      split
      next visited => exact ⟨thorough, .inl ⟨visited, outside⟩⟩
      next unvisited =>
        have longer : (stack ++ [a]).Nodup := List.nodup_append_comm.mp (by simpa [distinct] using outside)
        have deeper : ∀ b, r.Succeeds a b → (stack ++ [a] ++ [b]).IsChain r.Succeeds := fun b next => by
          rw [List.append_assoc]
          exact List.isChain_split.mpr ⟨linked, List.isChain_pair.mpr next⟩
        have less : SortedMap.size r + 2 ≤ fuel + (stack ++ [a]).length := by
          rw [List.length_append, List.length_singleton]
          omega
        obtain ⟨thoroughThen, settled⟩ := (thorough.visit unvisited).foldl fun b next s thorough =>
          ih thorough (deeper b next) longer less
        refine ⟨thoroughThen.leave outside settled, .inl ⟨?_, outside⟩⟩
        exact extends_foldl.visited a (contains_insert.mpr (.inl rfl))

theorem thorough_searched (r : Relation κ) :
    r.searched.IsThorough r [] ∧ ∀ a ∈ r.keys, r.searched.HasFinished [] a := by
  have start : ({} : Search κ).IsThorough r [] := ⟨nofun, nofun⟩
  obtain ⟨thorough, settled⟩ := start.foldl fun b (_ : b ∈ r.keys) s thorough =>
    thorough.search (List.isChain_singleton b) .nil (Nat.le_refl (SortedMap.size r + 2))
  exact ⟨thorough, fun a member => (settled a member).resolve_right fun ⟨inside, _⟩ => nomatch inside⟩

/-- Whatever lies on a cycle shares one with a member of a cycle that the search comes upon. -/
theorem exists_mem_cycles {a : κ} (round : Relation.TransGen r.Succeeds a a) :
    ∃ b, Relation.ReflTransGen r.Succeeds a b ∧ Relation.ReflTransGen r.Succeeds b a ∧ ∃ c ∈ r.cycles, b ∈ c := by
  obtain ⟨thorough, finished⟩ := r.thorough_searched
  obtain ⟨_, first, _⟩ := Relation.TransGen.head'_iff.mp round
  by_contra none
  refine thorough.straight a (finished a (mem_keys_of_succeeds first)) ?_
  have apart : ∀ b c, Relation.ReflTransGen r.Succeeds a b → Relation.ReflTransGen r.Succeeds b a →
      ¬ r.searched.Joins b c := by
    rintro b c there back ⟨f, found, member, _⟩
    obtain ⟨members, round, rfl⟩ := r.isSound_searched f found
    have inside := SortedSet.mem_toList_ofList.mp (SortedMap.contains_iff.mp member)
    exact none ⟨b, there, back, close members, mem_cycles_iff.mpr ⟨members, round, found, rfl⟩, mem_close inside⟩
  have leads : ∀ b, Relation.TransGen r.Succeeds a b → Relation.ReflTransGen r.Succeeds b a →
      Relation.TransGen (r.searched.Leads r) a b := by
    intro b there
    induction there with
    | single next => exact fun back => .single ⟨next, apart _ _ .refl (.head next back)⟩
    | tail there next ih =>
      intro back
      have back := Relation.ReflTransGen.head next back
      exact .tail (ih back) ⟨next, apart _ _ there.to_reflTransGen back⟩
  exact leads a round .refl

end

end Relation

end Deductions
