import Deductions.FirstOccurrence
import Mathlib.Data.List.Induction
import Mathlib.Data.List.Nodup

namespace Deductions

/-- The element after those seen, unless one of them has its key. -/
def addFirst {α β : Type} [BEq β] (key : α → β) (seen : List α) (a : α) : List α :=
  if seen.any fun b => key b == key a then seen else seen ++ [a]

theorem mem_addFirst {α β : Type} [BEq β] {key : α → β} {seen : List α} {a b : α}
    (member : a ∈ addFirst key seen b) : a ∈ seen ∨ a = b := by
  unfold addFirst at member
  split at member
  · exact .inl member
  · simpa using member

theorem mem_addFirst_of_mem {α β : Type} [BEq β] {key : α → β} {seen : List α} {a : α} (b : α)
    (member : a ∈ seen) : a ∈ addFirst key seen b := by
  unfold addFirst
  split
  · exact member
  · exact List.mem_append_left _ member

theorem exists_mem_addFirst {α β : Type} [BEq β] [LawfulBEq β] (key : α → β) (seen : List α) (a : α) :
    ∃ b ∈ addFirst key seen a, key b = key a := by
  unfold addFirst
  split
  next already =>
    obtain ⟨b, old, same⟩ := List.any_eq_true.mp already
    exact ⟨b, old, beq_iff_eq.mp same⟩
  · exact ⟨a, List.mem_append_right _ (List.mem_singleton.mpr rfl), rfl⟩

theorem mem_of_mem_firstBy {α β : Type} [BEq β] {key : α → β} {l : List α} {a : α}
    (member : a ∈ firstBy key l) : a ∈ l := by
  have general : ∀ seen, a ∈ l.foldl (addFirst key) seen → a ∈ seen ∨ a ∈ l := by
    clear member
    induction l with
    | nil => exact fun _ => .inl
    | cons b l ih =>
      intro seen member
      rcases ih _ member with old | later
      · exact (mem_addFirst old).imp_right (List.mem_cons.mpr <| .inl ·)
      · exact .inr (List.mem_cons_of_mem _ later)
  exact (general [] member).resolve_left List.not_mem_nil

theorem exists_mem_firstBy {α β : Type} [BEq β] [LawfulBEq β] (key : α → β) {l : List α} {a : α}
    (member : a ∈ l) : ∃ b ∈ firstBy key l, key b = key a := by
  have general : ∀ seen, ((∃ b ∈ seen, key b = key a) ∨ a ∈ l) →
      ∃ b ∈ l.foldl (addFirst key) seen, key b = key a := by
    clear member
    induction l with
    | nil => exact fun _ either => either.resolve_right List.not_mem_nil
    | cons c l ih =>
      intro seen either
      refine ih _ ?_
      rcases either with ⟨b, old, same⟩ | later
      · exact .inl ⟨b, mem_addFirst_of_mem c old, same⟩
      · rcases List.mem_cons.mp later with rfl | later
        · exact .inl (exists_mem_addFirst key seen a)
        · exact .inr later
  exact general [] (.inr member)

theorem firstBy_eq_nil {α β : Type} [BEq β] [LawfulBEq β] {key : α → β} {l : List α} :
    firstBy key l = [] ↔ l = [] := by
  constructor
  · intro none
    refine List.eq_nil_iff_forall_not_mem.mpr fun a member => ?_
    obtain ⟨b, found, _⟩ := exists_mem_firstBy key member
    rw [none] at found
    exact List.not_mem_nil found
  · rintro rfl
    rfl

theorem mem_firstOccurrences {α : Type} [BEq α] [LawfulBEq α] {l : List α} {a : α} :
    a ∈ firstOccurrences l ↔ a ∈ l := by
  refine ⟨mem_of_mem_firstBy, fun member => ?_⟩
  obtain ⟨b, found, rfl⟩ := exists_mem_firstBy id member
  exact found

theorem nodup_addFirst {α β : Type} [BEq β] [LawfulBEq β] {key : α → β} {seen : List α}
    (distinct : (seen.map key).Nodup) (a : α) : ((addFirst key seen a).map key).Nodup := by
  unfold addFirst
  split
  · exact distinct
  next fresh =>
    rw [List.map_append, List.map_singleton]
    refine List.Nodup.append distinct (List.nodup_singleton _) (List.disjoint_singleton.mpr fun old => fresh ?_)
    obtain ⟨b, inside, same⟩ := List.mem_map.mp old
    exact List.any_eq_true.mpr ⟨b, inside, beq_iff_eq.mpr same⟩

/-- No two elements that stay have one key. -/
theorem nodup_firstBy {α β : Type} [BEq β] [LawfulBEq β] (key : α → β) (l : List α) :
    ((firstBy key l).map key).Nodup := by
  have general : ∀ seen : List α, (seen.map key).Nodup → ((l.foldl (addFirst key) seen).map key).Nodup := by
    induction l with
    | nil => exact fun _ distinct => distinct
    | cons a l ih => exact fun seen distinct => ih _ (nodup_addFirst distinct a)
  exact general [] .nil

/-- The elements of `l`, each of them once, in the order in which they first occur there. -/
structure IsOnceEach {α : Type} [BEq α] (once l : List α) : Prop where
  mem_iff : ∀ a, a ∈ once ↔ a ∈ l
  ordered : once.Pairwise fun a b => l.idxOf a < l.idxOf b

theorem firstOccurrences_isOnceEach {α : Type} [BEq α] [LawfulBEq α] (l : List α) :
    IsOnceEach (firstOccurrences l) l := by
  refine ⟨fun _ => mem_firstOccurrences, ?_⟩
  induction l using List.reverseRecOn with
  | nil => exact .nil
  | append_singleton l a ih =>
    have old : (firstOccurrences l).Pairwise fun b c => (l ++ [a]).idxOf b < (l ++ [a]).idxOf c :=
      ih.imp_of_mem fun inB inC before => by
        rwa [List.idxOf_append_of_mem (mem_firstOccurrences.mp inB),
          List.idxOf_append_of_mem (mem_firstOccurrences.mp inC)]
    have last : firstOccurrences (l ++ [a]) = addFirst id (firstOccurrences l) a :=
      List.foldl_append.trans rfl
    rw [last, addFirst]
    split
    · exact old
    next fresh =>
      refine List.pairwise_append.mpr ⟨old, List.pairwise_singleton _ _, fun b inB c isLast => ?_⟩
      cases List.mem_singleton.mp isLast
      have notIn : a ∉ l := fun member => fresh <|
        List.any_eq_true.mpr ⟨a, mem_firstOccurrences.mpr member, beq_self_eq_true _⟩
      rw [List.idxOf_append_of_mem (mem_firstOccurrences.mp inB), List.idxOf_append_of_notMem notIn]
      exact Nat.lt_add_right _ (List.idxOf_lt_length_of_mem (mem_firstOccurrences.mp inB))

theorem length_addFirst_le {α β : Type} [BEq β] (key : α → β) (seen : List α) (a : α) :
    (addFirst key seen a).length ≤ seen.length + 1 := by
  unfold addFirst
  split
  · exact Nat.le_succ _
  · exact Nat.le_of_eq List.length_append

theorem length_firstBy_le {α β : Type} [BEq β] (key : α → β) (l : List α) : (firstBy key l).length ≤ l.length := by
  have general : ∀ seen : List α, (l.foldl (addFirst key) seen).length ≤ seen.length + l.length := by
    induction l with
    | nil => exact fun _ => Nat.le_refl _
    | cons a l ih =>
      intro seen
      have first := length_addFirst_le key seen a
      have later := ih (addFirst key seen a)
      rw [List.foldl_cons, List.length_cons]
      omega
  have whole := general []
  rwa [List.length_nil, Nat.zero_add] at whole

theorem addFirst_map {α β γ : Type} [BEq γ] (key : β → γ) (f : α → β) (seen : List α) (a : α) :
    addFirst key (seen.map f) (f a) = (addFirst (key ∘ f) seen a).map f := by
  have same : (seen.map f).any (fun b => key b == key (f a)) =
      seen.any fun b => (key ∘ f) b == (key ∘ f) a := List.any_map ..
  rw [addFirst, addFirst, same]
  split
  · rfl
  · rw [List.map_append, List.map_singleton]

theorem firstBy_map {α β γ : Type} [BEq γ] (key : β → γ) (f : α → β) (l : List α) :
    firstBy key (l.map f) = (firstBy (key ∘ f) l).map f := by
  have general : ∀ seen : List α,
      (l.map f).foldl (addFirst key) (seen.map f) = (l.foldl (addFirst (key ∘ f)) seen).map f := by
    induction l with
    | nil => exact fun _ => rfl
    | cons a l ih =>
      intro seen
      rw [List.map_cons, List.foldl_cons, List.foldl_cons, addFirst_map, ih]
  exact general []

/-- The first of each key are the first of all just if the key tells the elements apart. -/
theorem firstBy_eq_firstOccurrences_iff {α β : Type} [BEq α] [LawfulBEq α] [BEq β] [LawfulBEq β]
    {key : α → β} {l : List α} :
    firstBy key l = firstOccurrences l ↔ ∀ a ∈ l, ∀ b ∈ l, key a = key b → a = b := by
  constructor
  · intro same a inA b inB sameKey
    have distinct := nodup_firstBy key l
    rw [same] at distinct
    exact List.inj_on_of_nodup_map distinct (mem_firstOccurrences.mpr inA) (mem_firstOccurrences.mpr inB) sameKey
  · intro apart
    -- what was seen so far are elements of the list, and the two ways of telling them apart agree
    have general : ∀ (rest seen : List α), (∀ a ∈ seen, a ∈ l) → (∀ a ∈ rest, a ∈ l) →
        rest.foldl (addFirst key) seen = rest.foldl (addFirst id) seen := by
      intro rest
      induction rest with
      | nil => exact fun _ _ _ => rfl
      | cons a rest ih =>
        intro seen seenInside restInside
        obtain ⟨inside, restInside⟩ := List.forall_mem_cons.mp restInside
        have agree : addFirst key seen a = addFirst id seen a := by
          have same : seen.any (fun b => key b == key a) = seen.any fun b => id b == id a := by
            refine Bool.eq_iff_iff.mpr ?_
            simp only [List.any_eq_true, beq_iff_eq, id_eq]
            constructor
            · rintro ⟨b, old, sameKey⟩
              exact ⟨b, old, apart b (seenInside b old) a inside sameKey⟩
            · rintro ⟨b, old, rfl⟩
              exact ⟨b, old, rfl⟩
          rw [addFirst, addFirst, same]
        rw [List.foldl_cons, List.foldl_cons, agree]
        refine ih _ (fun b member => ?_) restInside
        rcases mem_addFirst member with old | rfl
        · exact seenInside b old
        · exact inside
    exact general l [] (fun _ member => nomatch member) fun _ member => member

end Deductions
