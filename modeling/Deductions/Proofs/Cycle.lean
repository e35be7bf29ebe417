import Deductions.Cycle
import Deductions.Proofs.SortedMap
import Mathlib.Algebra.GroupWithZero.Nat
import Mathlib.Algebra.Order.BigOperators.Group.List
import Mathlib.Algebra.Order.Group.Nat
import Mathlib.Logic.Relation

namespace Deductions

theorem sum_filter_add_le {α : Type} {l : List α} {wide narrow : α → Bool} (f : α → Nat)
    (narrower : ∀ a, narrow a = true → wide a = true) {a : α} (member : a ∈ l) (inside : wide a = true)
    (outside : narrow a = false) : ((l.filter narrow).map f).sum + f a ≤ ((l.filter wide).map f).sum := by
  have below : ∀ l : List α, ((l.filter narrow).map f).sum ≤ ((l.filter wide).map f).sum := fun l =>
    ((List.monotone_filter_right l narrower).map f).sum_le_sum fun _ _ => Nat.zero_le _
  obtain ⟨before, after, rfl⟩ := List.append_of_mem member
  have atBefore := below before
  have atAfter := below after
  simp only [List.filter_append, List.filter_cons, inside, outside, List.map_append, List.sum_append,
    if_true, Bool.false_eq_true, if_false, List.map_cons, List.sum_cons]
  omega

namespace Relation

variable {κ : Type} [Ord κ]

/-- One step of the relation. -/
def Succeeds (r : Relation κ) (a b : κ) : Prop := b ∈ r.successors a

/-- The number of successors of the elements that were not seen. -/
def unseen (r : Relation κ) (seen : SortedSet κ) : Nat :=
  ((r.entries.filter fun e => !seen.contains e.1).map fun e => e.2.length).sum

theorem unseen_empty (r : Relation κ) : r.unseen SortedMap.empty = r.size := by
  have all : (r.entries.filter fun e => !(SortedMap.empty : SortedSet κ).contains e.1) = r.entries :=
    List.filter_eq_self.mpr fun _ _ => rfl
  rw [unseen, all, size, SortedMap.values, List.length_flatten, List.map_map]
  rfl

variable [Std.TransOrd κ] [Std.LawfulEqOrd κ] {r : Relation κ} {seen : SortedSet κ} {a b : κ}

theorem contains_insert : (SortedSet.insert seen a).contains b = true ↔ b = a ∨ seen.contains b = true := by
  rw [SortedMap.contains_iff, SortedMap.contains_iff]
  exact SortedSet.mem_toList_insert

theorem unseen_insert (fresh : seen.contains a = false) :
    r.unseen (SortedSet.insert seen a) + (r.successors a).length ≤ r.unseen seen := by
  have narrower : ∀ e : κ × List κ, (!(SortedSet.insert seen a).contains e.1) = true →
      (!seen.contains e.1) = true := by
    intro e unseen
    rw [Bool.not_eq_true', Bool.eq_false_iff] at unseen ⊢
    exact fun old => unseen (contains_insert.mpr (.inr old))
  cases found : r.find? a with
  | none =>
    rw [successors, found]
    exact ((List.monotone_filter_right r.entries narrower).map _).sum_le_sum fun _ _ => Nat.zero_le _
  | some bs =>
    rw [successors, found]
    refine sum_filter_add_le (a := (a, bs)) (fun e => e.2.length) narrower
      (SortedMap.find?_eq_some_iff.mp found) (by rw [fresh]; rfl) ?_
    rw [contains_insert.mpr (.inl rfl)]
    rfl

theorem length_successors_le : (r.successors a).length ≤ r.size := by
  have bound : r.unseen (SortedSet.insert SortedMap.empty a) + (r.successors a).length ≤
      r.unseen SortedMap.empty := unseen_insert rfl
  rw [unseen_empty] at bound
  omega

/-- What is reached was seen before, or is led to from what was left to do. -/
theorem of_mem_reach {fuel : Nat} {todo : List κ}
    (reached : (r.reach fuel todo seen).contains b = true) :
    seen.contains b = true ∨ ∃ a ∈ todo, Relation.ReflTransGen r.Succeeds a b := by
  fun_induction reach r fuel todo seen with
  | case1 => exact .inl reached
  | case2 => exact .inl reached
  | case3 fuel a todo seen _ ih =>
    refine (ih reached).imp_right ?_
    rintro ⟨a', member, leads⟩
    exact ⟨a', List.mem_cons_of_mem _ member, leads⟩
  | case4 fuel a todo seen _ ih =>
    rcases ih reached with old | ⟨a', member, leads⟩
    · rcases contains_insert.mp old with rfl | old
      · exact .inr ⟨b, List.mem_cons_self, .refl⟩
      · exact .inl old
    · rcases List.mem_append.mp member with next | member
      · exact .inr ⟨a, List.mem_cons_self, .head next leads⟩
      · exact .inr ⟨a', List.mem_cons_of_mem _ member, leads⟩

/-- With enough fuel the search comes to an end: what was seen and what was left to do is reached,
and so is all that succeeds what was not seen before. -/
theorem reach_closed {fuel : Nat} {todo : List κ} (enough : todo.length + r.unseen seen ≤ fuel) :
    (∀ b, seen.contains b = true → (r.reach fuel todo seen).contains b = true) ∧
    (∀ a ∈ todo, (r.reach fuel todo seen).contains a = true) ∧
    ∀ a b, (r.reach fuel todo seen).contains a = true → seen.contains a = false → r.Succeeds a b →
      (r.reach fuel todo seen).contains b = true := by
  fun_induction reach r fuel todo seen with
  | case1 todo seen =>
    obtain rfl : todo = [] := List.length_eq_zero_iff.mp (by omega)
    refine ⟨fun _ => id, by simp, fun a _ inside outside => ?_⟩
    rw [inside] at outside
    cases outside
  | case2 seen =>
    refine ⟨fun _ => id, by simp, fun a _ inside outside => ?_⟩
    rw [inside] at outside
    cases outside
  | case3 fuel a todo seen old ih =>
    rw [List.length_cons] at enough
    obtain ⟨kept, done, closed⟩ := ih (by omega)
    refine ⟨kept, fun a' member => ?_, closed⟩
    rcases List.mem_cons.mp member with rfl | member
    · exact kept a' old
    · exact done a' member
  | case4 fuel a todo seen new ih =>
    have fresh : seen.contains a = false := Bool.eq_false_iff.mpr new
    have smaller := unseen_insert (r := r) fresh
    rw [List.length_cons] at enough
    obtain ⟨kept, done, closed⟩ := ih (by rw [List.length_append]; omega)
    refine ⟨fun b old => kept b (contains_insert.mpr (.inr old)), fun a' member => ?_, ?_⟩
    · rcases List.mem_cons.mp member with rfl | member
      · exact kept a' (contains_insert.mpr (.inl rfl))
      · exact done a' (List.mem_append_right _ member)
    · intro a' b inside outside next
      by_cases same : a' = a
      · exact done b (List.mem_append_left _ (same ▸ next))
      · refine closed a' b inside ?_ next
        rw [Bool.eq_false_iff, ne_eq, contains_insert, not_or]
        exact ⟨same, Bool.eq_false_iff.mp outside⟩

/-- An element lies on a cycle if it succeeds itself, over any number of steps. -/
theorem onCycle_iff : r.onCycle a = true ↔ Relation.TransGen r.Succeeds a a := by
  rw [onCycle, reachable, Relation.TransGen.head'_iff]
  constructor
  · intro reached
    exact (of_mem_reach reached).resolve_left nofun
  · rintro ⟨b, next, leads⟩
    have enough : (r.successors a).length + r.unseen SortedMap.empty ≤ 2 * r.size + 1 := by
      have few := length_successors_le (r := r) (a := a)
      rw [unseen_empty]
      omega
    obtain ⟨-, done, closed⟩ := reach_closed enough
    have start := done b next
    generalize r.reach _ _ _ = reached at start closed ⊢
    clear enough done next
    induction leads with
    | refl => exact start
    | tail _ later ih => exact closed _ _ ih rfl later

end Relation

end Deductions
