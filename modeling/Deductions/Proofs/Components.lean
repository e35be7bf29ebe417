import Deductions.Proofs.CycleSearch

namespace Deductions

namespace Relation

section

variable {κ : Type} [Ord κ]

/-- The components of the elements that are related to any, each sorted and listed once, in the order of their
least members. -/
structure IsComponentListing (related : κ → κ → Prop) (groups : List (List κ)) : Prop where
  component : ∀ group ∈ groups, ∃ a ∈ group, (∃ b, Relation.SymmGen related a b) ∧
    ∀ b, b ∈ group ↔ Relation.ReflTransGen (Relation.SymmGen related) a b
  complete : ∀ a b, related a b → ∃ group ∈ groups, a ∈ group ∧ b ∈ group
  sorted : ∀ group ∈ groups, group.Pairwise fun a b => compare a b = .lt
  disjoint : groups.Pairwise List.Disjoint
  ordered : groups.Pairwise fun group later => ∃ a ∈ group, ∀ b ∈ later, compare a b = .lt

variable [Std.TransOrd κ] [Std.LawfulEqOrd κ] {r : Relation κ} {a b : κ}

/-- The relation with `b` among what succeeds `a`. -/
def link (r : Relation κ) (a b : κ) : Relation κ := SortedMap.insert r a (r.successors a ++ [b])

theorem succeeds_link {a' b' : κ} : (r.link a b).Succeeds a' b' ↔ r.Succeeds a' b' ∨ a' = a ∧ b' = b := by
  simp only [Succeeds, successors, link]
  by_cases same : a' = a
  · subst same
    simp
  · rw [SortedMap.find?_insert_of_ne _ _ same]
    simp [same]

theorem succeeds_foldl_link {bs : List κ} {a' b' : κ} :
    (bs.foldl (fun r b => (r.link a b).link b a) r).Succeeds a' b' ↔
      r.Succeeds a' b' ∨ a' = a ∧ b' ∈ bs ∨ b' = a ∧ a' ∈ bs := by
  induction bs generalizing r with
  | nil => simp
  | cons b bs ih =>
    rw [List.foldl_cons, ih, succeeds_link, succeeds_link]
    simp only [List.mem_cons]
    tauto

theorem succeeds_iff_mem_entries : r.Succeeds a b ↔ ∃ bs, (a, bs) ∈ r.entries ∧ b ∈ bs := by
  rw [Succeeds, successors]
  constructor
  · intro next
    cases found : r.find? a with
    | none =>
      rw [found] at next
      cases next
    | some bs =>
      rw [found] at next
      exact ⟨bs, SortedMap.find?_eq_some_iff.mp found, next⟩
  · rintro ⟨bs, entry, next⟩
    rw [SortedMap.find?_eq_some_iff.mpr entry]
    exact next

theorem succeeds_symmetric : r.symmetric.Succeeds a b ↔ Relation.SymmGen r.Succeeds a b := by
  have general : ∀ (entries : List (κ × List κ)) (m : Relation κ),
      (entries.foldl (fun m e => e.2.foldl (fun m b => (m.link e.1 b).link b e.1) m) m).Succeeds a b ↔
        m.Succeeds a b ∨ ∃ e ∈ entries, a = e.1 ∧ b ∈ e.2 ∨ b = e.1 ∧ a ∈ e.2 := by
    intro entries
    induction entries with
    | nil => simp
    | cons e entries ih =>
      intro m
      rw [List.foldl_cons, ih, succeeds_foldl_link, List.exists_mem_cons_iff, or_assoc]
  have none : ¬ Succeeds SortedMap.empty a b := fun next => nomatch next
  refine (general r.entries SortedMap.empty).trans ?_
  change _ ↔ r.Succeeds a b ∨ r.Succeeds b a
  rw [or_iff_right none, succeeds_iff_mem_entries, succeeds_iff_mem_entries]
  constructor
  · rintro ⟨⟨k, bs⟩, entry, ⟨rfl, next⟩ | ⟨rfl, next⟩⟩
    · exact .inl ⟨bs, entry, next⟩
    · exact .inr ⟨bs, entry, next⟩
  · rintro (⟨bs, entry, next⟩ | ⟨bs, entry, next⟩)
    · exact ⟨(a, bs), entry, .inl ⟨rfl, next⟩⟩
    · exact ⟨(b, bs), entry, .inr ⟨rfl, next⟩⟩

/-- An element is only made a key for what it is related to. -/
theorem exists_succeeds_symmetric (member : a ∈ r.symmetric.keys) : ∃ b, r.symmetric.Succeeds a b := by
  have link : ∀ {m : Relation κ} (k l : κ), (∀ a ∈ m.keys, ∃ b, m.Succeeds a b) →
      ∀ a ∈ (m.link k l).keys, ∃ b, (m.link k l).Succeeds a b := by
    intro m k l related a member
    rcases SortedMap.mem_keys_insert.mp member with rfl | old
    · exact ⟨l, succeeds_link.mpr (.inr ⟨rfl, rfl⟩)⟩
    · exact (related a old).imp fun b next => succeeds_link.mpr (.inl next)
  have all : ∀ a ∈ r.symmetric.keys, ∃ b, r.symmetric.Succeeds a b := by
    refine List.foldlRecOn (motive := fun m : Relation κ => ∀ a ∈ m.keys, ∃ b, m.Succeeds a b) _ _
      (fun _ member => nomatch member) fun m related e _ => ?_
    exact List.foldlRecOn (motive := fun m : Relation κ => ∀ a ∈ m.keys, ∃ b, m.Succeeds a b) _ _ related
      fun m related b _ => link _ _ (link _ _ related)
  exact all a member

/-- What is reached from `a`, with `a` itself. -/
def component (r : Relation κ) (a : κ) : List κ := SortedSet.toList (r.reach (2 * r.size + 2) [a] SortedMap.empty)

theorem mem_component_iff : b ∈ r.component a ↔ Relation.ReflTransGen r.Succeeds a b := by
  rw [component, SortedSet.toList, ← SortedMap.contains_iff]
  constructor
  · intro reached
    obtain ⟨a', member, leads⟩ := (of_mem_reach reached).resolve_left Bool.false_ne_true
    rwa [List.mem_singleton.mp member] at leads
  · intro leads
    have enough : [a].length + r.unseen SortedMap.empty ≤ 2 * r.size + 2 := by
      rw [unseen_empty, List.length_singleton]
      omega
    obtain ⟨-, done, closed⟩ := reach_closed enough
    induction leads with
    | refl => exact done a (List.mem_singleton_self a)
    | tail _ next ih => exact closed _ _ ih rfl next

theorem mem_component_symmetric : b ∈ r.symmetric.component a ↔
    Relation.ReflTransGen (Relation.SymmGen r.Succeeds) a b := by
  have same : r.symmetric.Succeeds = Relation.SymmGen r.Succeeds :=
    funext fun _ => funext fun _ => propext succeeds_symmetric
  rw [mem_component_iff, same]

/-- Elements of which the one is in the component of the other have the same component. -/
theorem mem_component_trans {c : κ} (first : b ∈ r.symmetric.component a) :
    c ∈ r.symmetric.component a ↔ c ∈ r.symmetric.component b := by
  rw [mem_component_symmetric] at first
  rw [mem_component_symmetric, mem_component_symmetric]
  have back : Relation.ReflTransGen (Relation.SymmGen r.Succeeds) b a := Std.Symm.symm _ _ first
  exact ⟨back.trans, first.trans⟩

/-- Whatever shares a component with a key is a key. -/
theorem mem_keys_of_mem_component (key : a ∈ r.symmetric.keys) (member : b ∈ r.symmetric.component a) :
    b ∈ r.symmetric.keys := by
  rcases (mem_component_iff.mp member).cases_tail with rfl | ⟨c, _, next⟩
  · exact key
  · exact mem_keys_of_succeeds (succeeds_symmetric.mpr (succeeds_symmetric.mp next).symm)

omit [Std.LawfulEqOrd κ] in
theorem sorted_component (r : Relation κ) (a : κ) : (r.component a).Pairwise fun a b => compare a b = .lt :=
  SortedMap.sorted_keys _

/-- What is known of the groups when the keys `before` were taken. -/
structure AreGroups (r : Relation κ) (before : List κ) (groups : List (List κ)) : Prop where
  component : ∀ group ∈ groups, ∃ a ∈ before, group = r.symmetric.component a
  covers : ∀ a ∈ before, ∃ group ∈ groups, a ∈ group
  disjoint : groups.Pairwise List.Disjoint
  ordered : groups.Pairwise fun group later => ∃ a ∈ group, ∀ b ∈ later, compare a b = .lt

/-- A key that is in no group yet is the least member of its component, which has nothing in common with the groups
before. -/
theorem AreGroups.fresh {before after : List κ} {groups : List (List κ)} (known : r.AreGroups before groups)
    (split : r.symmetric.keys = before ++ a :: after) (new : ∀ group ∈ groups, a ∉ group) :
    (∀ group ∈ groups, List.Disjoint group (r.symmetric.component a)) ∧
      ∀ b ∈ r.symmetric.component a, b = a ∨ compare a b = .lt := by
  have apart : ∀ group ∈ groups, List.Disjoint group (r.symmetric.component a) := by
    intro group member b inGroup inside
    obtain ⟨a', _, rfl⟩ := known.component group member
    refine new _ member ((mem_component_trans inGroup).mpr ?_)
    exact (mem_component_trans inside).mp (mem_component_iff.mpr .refl)
  refine ⟨apart, fun b inside => ?_⟩
  have sorted := r.symmetric.sorted_keys
  have key : a ∈ r.symmetric.keys := split ▸ List.mem_append_right _ List.mem_cons_self
  have member := mem_keys_of_mem_component key inside
  rw [split] at sorted member
  rcases List.mem_append.mp member with earlier | here
  · obtain ⟨group, isGroup, inGroup⟩ := known.covers b earlier
    exact absurd inside (apart group isGroup inGroup)
  · exact (List.mem_cons.mp here).imp_right ((List.pairwise_cons.mp (List.pairwise_append.mp sorted).2.1).1 b)

variable [DecidableEq κ]

/-- The groups after one more key. -/
def addGroup (r : Relation κ) (groups : List (List κ)) (a : κ) : List (List κ) :=
  if groups.any fun group => group.contains a then groups else groups ++ [r.component a]

theorem AreGroups.next {before after : List κ} {groups : List (List κ)} (known : r.AreGroups before groups)
    (split : r.symmetric.keys = before ++ a :: after) :
    r.AreGroups (before ++ [a]) (r.symmetric.addGroup groups a) := by
  have component : ∀ group ∈ groups, ∃ a' ∈ before ++ [a], group = r.symmetric.component a' :=
    fun group member => (known.component group member).imp fun _ => And.imp_left (List.mem_append_left _)
  rw [addGroup]
  split
  next old =>
    obtain ⟨group, member, inside⟩ := List.any_eq_true.mp old
    refine ⟨component, List.forall_mem_append.mpr ⟨known.covers, ?_⟩, known.disjoint, known.ordered⟩
    exact List.forall_mem_singleton.mpr ⟨group, member, List.contains_iff_mem.mp inside⟩
  next new =>
    have new : ∀ group ∈ groups, a ∉ group := fun group member inside =>
      new (List.any_eq_true.mpr ⟨group, member, List.contains_iff_mem.mpr inside⟩)
    obtain ⟨apart, least⟩ := known.fresh split new
    have own : a ∈ r.symmetric.component a := mem_component_iff.mpr .refl
    refine ⟨?component, ?covers, ?disjoint, ?ordered⟩
    case component =>
      exact List.forall_mem_append.mpr ⟨component, List.forall_mem_singleton.mpr ⟨a, by simp, rfl⟩⟩
    case covers =>
      refine List.forall_mem_append.mpr ⟨fun b earlier => ?_, ?_⟩
      · exact (known.covers b earlier).imp fun _ => And.imp_left (List.mem_append_left _)
      · exact List.forall_mem_singleton.mpr ⟨_, by simp, own⟩
    case disjoint =>
      refine List.pairwise_append.mpr ⟨known.disjoint, List.pairwise_singleton _ _, fun group member => ?_⟩
      exact List.forall_mem_singleton.mpr (apart group member)
    case ordered =>
      refine List.pairwise_append.mpr ⟨known.ordered, List.pairwise_singleton _ _, fun group member => ?_⟩
      refine List.forall_mem_singleton.mpr ?_
      -- the key at which the earlier group was met is below this one
      obtain ⟨a', earlier, rfl⟩ := known.component group member
      have sorted := r.symmetric.sorted_keys
      rw [split] at sorted
      have below : compare a' a = .lt := (List.pairwise_append.mp sorted).2.2 a' earlier a List.mem_cons_self
      refine ⟨a', mem_component_iff.mpr .refl, fun b inside => ?_⟩
      rcases least b inside with rfl | above
      · exact below
      · exact Std.TransCmp.lt_trans below above

theorem areGroups_components (r : Relation κ) : r.AreGroups r.symmetric.keys r.components := by
  have general : ∀ (after before : List κ) (groups : List (List κ)), r.symmetric.keys = before ++ after →
      r.AreGroups before groups → r.AreGroups r.symmetric.keys (after.foldl r.symmetric.addGroup groups) := by
    intro after
    induction after with
    | nil =>
      intro before groups split known
      rw [split, List.append_nil]
      exact known
    | cons a after ih =>
      intro before groups split known
      refine ih (before ++ [a]) _ ?_ (known.next split)
      rw [split, List.append_assoc, List.singleton_append]
  exact general _ [] [] rfl ⟨nofun, nofun, .nil, .nil⟩

theorem components_isComponentListing (r : Relation κ) : IsComponentListing r.Succeeds r.components := by
  have known := r.areGroups_components
  refine ⟨fun group member => ?component, fun a b next => ?complete, fun group member => ?sorted, known.disjoint,
    known.ordered⟩
  case component =>
    obtain ⟨a, key, rfl⟩ := known.component group member
    obtain ⟨b, next⟩ := exists_succeeds_symmetric key
    exact ⟨a, mem_component_iff.mpr .refl, ⟨b, succeeds_symmetric.mp next⟩, fun _ => mem_component_symmetric⟩
  case complete =>
    have next : r.symmetric.Succeeds a b := succeeds_symmetric.mpr (.inl next)
    obtain ⟨group, member, inside⟩ := known.covers a (mem_keys_of_succeeds next)
    obtain ⟨a', _, rfl⟩ := known.component group member
    exact ⟨_, member, inside, mem_component_iff.mpr ((mem_component_iff.mp inside).tail next)⟩
  case sorted =>
    obtain ⟨a, _, rfl⟩ := known.component group member
    exact r.symmetric.sorted_component a

end

end Relation

end Deductions
