import Deductions.Proofs.CycleSearch

namespace Deductions

namespace Relation

section

variable {κ : Type} [Ord κ] [Std.TransOrd κ] [DecidableEq κ]

/-- How searches from some elements, one after the other, change a state. A search closes a cycle where it
meets its own stack, passes over what was visited, and otherwise goes on to all that succeeds the element.
Nothing bounds how deep it goes. -/
inductive Explores (r : Relation κ) : List κ → Search κ → List κ → Search κ → Prop
  | done {stack s} : Explores r stack s [] s
  | closes {stack s a rest s'} (meets : a ∈ stack)
      (later : Explores r stack (s.record (stack.dropWhile (· ≠ a))) rest s') : Explores r stack s (a :: rest) s'
  | passes {stack s a rest s'} (fresh : a ∉ stack) (visited : s.visited.contains a = true)
      (later : Explores r stack s rest s') : Explores r stack s (a :: rest) s'
  | enters {stack s a rest s' s''} (fresh : a ∉ stack) (unvisited : ¬ s.visited.contains a = true)
      (inside : Explores r (stack ++ [a]) { s with visited := SortedSet.insert s.visited a } (r.successors a) s')
      (later : Explores r stack s' rest s'') : Explores r stack s (a :: rest) s''

variable {r : Relation κ} {s s' s'' : Search κ} {stack l : List κ} {a : κ}

theorem Explores.unique (first : r.Explores stack s l s') (second : r.Explores stack s l s'') : s' = s'' := by
  induction first generalizing s'' with
  | done =>
    cases second
    rfl
  | closes meets _ ih =>
    cases second with
    | closes _ later => exact ih later
    | passes fresh => exact absurd meets fresh
    | enters fresh => exact absurd meets fresh
  | passes fresh visited _ ih =>
    cases second with
    | closes meets => exact absurd meets fresh
    | passes _ _ later => exact ih later
    | enters _ unvisited => exact absurd visited unvisited
  | enters fresh unvisited _ _ ihInside ihLater =>
    cases second with
    | closes meets => exact absurd meets fresh
    | passes _ visited => exact absurd visited unvisited
    | enters _ _ inside later =>
      cases ihInside inside
      exact ihLater later

/-- One step of a bounded search, if what lies deeper is explored. -/
theorem Explores.cons {fuel : Nat} (deeper : a ∉ stack → ∀ s, r.Explores (stack ++ [a]) s (r.successors a)
      ((r.successors a).foldl (r.search fuel (stack ++ [a])) s))
    (later : r.Explores stack (r.search (fuel + 1) stack s a) l s') : r.Explores stack s (a :: l) s' := by
  rw [search] at later
  split at later
  next meets => exact .closes (List.contains_iff_mem.mp meets) later
  next fresh =>
    have fresh : a ∉ stack := fun meets => fresh (List.contains_iff_mem.mpr meets)
    split at later
    next visited => exact .passes fresh visited later
    next unvisited => exact .enters fresh unvisited (deeper fresh _) later

variable [Std.LawfulEqOrd κ]

/-- With as much fuel as a search has, the bound is never met. -/
theorem explores_foldl {fuel : Nat} (linked : ∀ a ∈ l, (stack ++ [a]).IsChain r.Succeeds) (distinct : stack.Nodup)
    (enough : SortedMap.size r + 2 ≤ fuel + stack.length) :
    r.Explores stack s l (l.foldl (r.search fuel stack) s) := by
  induction fuel generalizing stack l s with
  | zero =>
    cases l with
    | nil => exact .done
    | cons a l =>
      have few := length_le_size (linked a List.mem_cons_self) distinct
      omega
  | succ fuel ih =>
    induction l generalizing s with
    | nil => exact .done
    | cons a l ihList =>
      obtain ⟨first, later⟩ := List.forall_mem_cons.mp linked
      refine .cons (fun fresh s => ih (fun b next => ?_) ?_ ?_) (ihList later)
      · rw [List.append_assoc]
        exact List.isChain_split.mpr ⟨first, List.isChain_pair.mpr next⟩
      · exact List.nodup_append_comm.mp (by simpa [distinct] using fresh)
      · rw [List.length_append, List.length_singleton]
        omega

/-- The search from every element comes to an end, and only to this one. -/
theorem explores_iff_eq_searched : r.Explores [] {} r.keys s ↔ s = r.searched := by
  have ends : r.Explores [] {} r.keys r.searched :=
    explores_foldl (fun a _ => List.isChain_singleton a) .nil (Nat.le_refl (SortedMap.size r + 2))
  constructor
  · exact fun explores => explores.unique ends
  · rintro rfl
    exact ends

end

section

variable {κ : Type} [Ord κ]

/-- A way that leads from its least member over others back to it, and meets none of them twice. -/
def IsSimpleCycle (r : Relation κ) (cycle : List κ) : Prop :=
  ∃ start rest, cycle = start :: (rest ++ [start]) ∧ (start :: rest).Nodup ∧ cycle.IsChain r.Succeeds ∧
    ∀ a ∈ cycle, (compare start a).isLE = true

theorem isLE_least [Std.TransOrd κ] (first : κ) (rest : List κ) :
    ∀ a ∈ first :: rest, (compare (least first rest) a).isLE = true := by
  induction rest generalizing first with
  | nil => exact List.forall_mem_singleton.mpr Std.ReflCmp.isLE_rfl
  | cons b rest ih =>
    obtain ⟨below, others⟩ := List.forall_mem_cons.mp (ih (if compare b first = .lt then b else first))
    rw [least, List.foldl_cons, ← least]
    -- what the first two are replaced by is below both
    suffices best : (compare (if compare b first = .lt then b else first) first).isLE = true ∧
        (compare (if compare b first = .lt then b else first) b).isLE = true from
      List.forall_mem_cons.mpr ⟨Std.TransCmp.isLE_trans below best.1,
        List.forall_mem_cons.mpr ⟨Std.TransCmp.isLE_trans below best.2, others⟩⟩
    split
    next less => exact ⟨Ordering.isLE_of_eq_lt less, Std.ReflCmp.isLE_rfl⟩
    next notLess =>
      exact ⟨Std.ReflCmp.isLE_rfl, Std.OrientedCmp.isGE_iff_isLE.mp (Ordering.ne_lt_iff_isGE.mp notLess)⟩

variable [DecidableEq κ]

theorem head?_close (first : κ) (rest : List κ) : (close (first :: rest)).head? = some (least first rest) := by
  obtain ⟨_, after, _, turned⟩ := exists_dropWhile_eq (least_mem first rest)
  rw [close, turned]
  rfl

theorem mem_close_iff {members : List κ} {a : κ} : a ∈ close members ↔ a ∈ members := by
  refine ⟨fun member => ?_, mem_close⟩
  obtain ⟨start, rest, closed, turned⟩ : ∃ start rest, close members = start :: (rest ++ [start]) ∧
      (start :: rest) ~r members := by
    refine exists_close_eq ?_
    rintro rfl
    cases member
  rw [closed, ← List.cons_append, List.mem_append, List.mem_singleton] at member
  rcases member with member | rfl
  · exact turned.mem_iff.mp member
  · exact turned.mem_iff.mp List.mem_cons_self

variable [Std.TransOrd κ]

theorem isSimpleCycle_of_mem_cycles {r : Relation κ} {cycle : List κ} (member : cycle ∈ r.cycles) :
    r.IsSimpleCycle cycle := by
  obtain ⟨start, rest, closed, distinct, linked⟩ := of_mem_cycles member
  refine ⟨start, rest, closed, distinct, linked, ?_⟩
  obtain ⟨members, round, _, rfl⟩ := mem_cycles_iff.mp member
  obtain ⟨first, others, rfl⟩ := List.exists_cons_of_ne_nil round.nonempty
  have isLeast := head?_close first others
  rw [closed, List.head?_cons, Option.some.injEq] at isLeast
  rw [isLeast]
  exact fun a inside => isLE_least first others a (mem_close_iff.mp inside)

/-- No two cycles that a search has found have the same members. -/
def Search.IsApart (s : Search κ) : Prop := (s.found.map Prod.fst).Nodup

variable {r : Relation κ} {s : Search κ}

theorem Search.IsApart.record (apart : s.IsApart) (members : List κ) : (s.record members).IsApart := by
  unfold Search.record
  dsimp only
  split
  · exact apart
  next new =>
    rw [IsApart, List.map_append, List.map_singleton]
    refine List.Nodup.append apart (List.nodup_singleton _) (List.disjoint_singleton.mpr fun old => new ?_)
    obtain ⟨f, found, same⟩ := List.mem_map.mp old
    exact List.any_eq_true.mpr ⟨f, found, beq_iff_eq.mpr same⟩

theorem Search.IsApart.search {fuel : Nat} {stack : List κ} {a : κ} (apart : s.IsApart) :
    (r.search fuel stack s a).IsApart := by
  induction fuel generalizing stack s a with
  | zero => exact apart
  | succ fuel ih =>
    rw [Relation.search]
    split
    · exact apart.record _
    · split
      · exact apart
      · exact List.foldlRecOn _ _ apart fun _ apart _ _ => ih apart

theorem isApart_searched (r : Relation κ) : r.searched.IsApart :=
  List.foldlRecOn _ _ .nil fun _ apart _ _ => Search.IsApart.search apart

variable [Std.LawfulEqOrd κ]

theorem pairwise_cycles (r : Relation κ) : r.cycles.Pairwise fun c d => ¬ ∀ a, a ∈ c ↔ a ∈ d := by
  have apart : r.searched.found.Pairwise fun f g => f.1 ≠ g.1 := List.pairwise_map.mp (isApart_searched r)
  rw [cycles, List.Perm.pairwise_iff (fun differ same => differ fun a => (same a).symm)
    (List.mergeSort_perm _ _), List.pairwise_map]
  refine apart.imp_of_mem fun {f g} first second differ same => differ ?_
  obtain ⟨members, _, rfl⟩ := r.isSound_searched f first
  obtain ⟨others, _, rfl⟩ := r.isSound_searched g second
  refine SortedSet.eq_of_mem_toList fun a => ?_
  rw [SortedSet.mem_toList_ofList, SortedSet.mem_toList_ofList, ← mem_close_iff, same a, mem_close_iff]

theorem cycles_eq_nil_iff : r.cycles = [] ↔ ∀ a, ¬ Relation.TransGen r.Succeeds a a := by
  constructor
  · intro none a round
    obtain ⟨_, _, _, cycle, member, _⟩ := exists_mem_cycles round
    rw [none] at member
    cases member
  · intro none
    refine List.eq_nil_iff_forall_not_mem.mpr fun cycle member => ?_
    obtain ⟨start, rest, rfl, _, linked⟩ := of_mem_cycles member
    have leads := (linked.imp fun _ _ => Relation.TransGen.single).pairwise
    exact none start (List.rel_of_pairwise_cons leads (List.mem_append_right _ List.mem_cons_self))

/-- The list has a cycle if there is any, and only simple ones, which differ in their members. -/
structure IsCycleListing (r : Relation κ) (cycles : List (List κ)) : Prop where
  eq_nil_iff : cycles = [] ↔ ∀ a, ¬ Relation.TransGen r.Succeeds a a
  simple : ∀ cycle ∈ cycles, r.IsSimpleCycle cycle
  apart : cycles.Pairwise fun c d => ¬ ∀ a, a ∈ c ↔ a ∈ d

/-- The search for cycles ends, in one way only, and with a list of cycles; and an element is told to be on a
cycle just if it succeeds itself. -/
theorem cycles_isCycleListing (r : Relation κ) :
    (∃ s, (∀ s', r.Explores [] {} r.keys s' ↔ s' = s) ∧
      r.cycles = (s.found.map Prod.snd).mergeSort fun a b => (compare a b).isLE) ∧
    r.IsCycleListing r.cycles ∧ ∀ a, r.onCycle a = true ↔ Relation.TransGen r.Succeeds a a where
  left := ⟨r.searched, fun _ => explores_iff_eq_searched, rfl⟩
  right := ⟨⟨cycles_eq_nil_iff, fun _ => isSimpleCycle_of_mem_cycles, pairwise_cycles r⟩, fun _ => onCycle_iff⟩

end

/-- Three elements in a round, entered at the last of them, and a fourth one that leads to itself and to them. -/
def roundRelation : Relation Nat := .ofList [(1, [2]), (2, [3]), (3, [1]), (4, [4, 3])]

theorem cycles_isCycleListing_roundRelation :
    roundRelation.cycles = [[1, 2, 3, 1], [4, 4]] ∧ roundRelation.IsCycleListing roundRelation.cycles ∧
      ∀ a, roundRelation.onCycle a = true ↔ Relation.TransGen roundRelation.Succeeds a a :=
  ⟨by cbv, (cycles_isCycleListing roundRelation).2⟩

end Relation

end Deductions
