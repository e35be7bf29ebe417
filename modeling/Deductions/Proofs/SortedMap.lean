import Deductions.SortedMap
import Mathlib.Data.List.Nodup

namespace Deductions

variable {κ ν : Type} [Ord κ]

@[simp] theorem SortedMap.find?_empty (k : κ) : (empty : SortedMap κ ν).find? k = none := rfl

variable [Std.LawfulEqOrd κ]

theorem ne_of_compare_lt {a b : κ} (less : compare a b = .lt) : a ≠ b := by
  rintro rfl
  have same : compare a a = .eq := Std.ReflCmp.compare_self
  rw [same] at less
  cases less

variable [Std.TransOrd κ]

/-- Neither of two keys comes after the other only if they are one. -/
theorem eq_of_not_gt {a b : κ} (notAfter : compare a b ≠ .gt) (notBefore : compare b a ≠ .gt) : a = b := by
  cases order : compare a b with
  | eq => exact Std.LawfulEqOrd.eq_of_compare order
  | lt => exact absurd (Std.OrientedCmp.gt_of_lt order) notBefore
  | gt => exact absurd order notAfter

namespace SortedMap

theorem mem_insertEntry_iff {k : κ} {v : ν} {e : κ × ν} {l : List (κ × ν)}
    (sorted : l.Pairwise fun a b => compare a.1 b.1 = .lt) :
    e ∈ insertEntry k v l ↔ e = (k, v) ∨ e.1 ≠ k ∧ e ∈ l := by
  induction l with
  | nil => simp [insertEntry]
  | cons head rest ih =>
    obtain ⟨k', v'⟩ := head
    obtain ⟨first, others⟩ := List.pairwise_cons.mp sorted
    rw [insertEntry]
    split
    next less =>
      have greater : ∀ a ∈ (k', v') :: rest, a.1 ≠ k := by
        intro a member
        rcases List.mem_cons.mp member with rfl | member
        · exact (ne_of_compare_lt less).symm
        · exact (ne_of_compare_lt (Std.TransCmp.lt_trans less (first a member))).symm
      rw [List.mem_cons]
      exact or_congr_right ⟨fun member => ⟨greater e member, member⟩, And.right⟩
    next same =>
      obtain rfl : k = k' := Std.LawfulEqOrd.eq_of_compare same
      have greater : ∀ a ∈ rest, a.1 ≠ k := fun a member => (ne_of_compare_lt (first a member)).symm
      rw [List.mem_cons, List.mem_cons]
      refine or_congr_right ⟨fun member => ⟨greater e member, .inr member⟩, ?_⟩
      rintro ⟨other, rfl | member⟩
      · exact absurd rfl other
      · exact member
    next greater =>
      have other : k' ≠ k := ne_of_compare_lt (Std.OrientedCmp.lt_of_gt greater)
      rw [List.mem_cons, List.mem_cons, ih others]
      constructor
      · rintro (rfl | rfl | ⟨different, member⟩)
        · exact .inr ⟨other, .inl rfl⟩
        · exact .inl rfl
        · exact .inr ⟨different, .inr member⟩
      · rintro (rfl | ⟨different, rfl | member⟩)
        · exact .inr (.inl rfl)
        · exact .inl rfl
        · exact .inr (.inr ⟨different, member⟩)

theorem findEntry_eq_some_iff {k : κ} {v : ν} {l : List (κ × ν)}
    (sorted : l.Pairwise fun a b => compare a.1 b.1 = .lt) :
    findEntry k l = some v ↔ (k, v) ∈ l := by
  induction l with
  | nil => simp [findEntry]
  | cons head rest ih =>
    obtain ⟨k', v'⟩ := head
    obtain ⟨first, others⟩ := List.pairwise_cons.mp sorted
    have later : compare k k' ≠ .gt → (k, v) ∉ rest := by
      intro notGreater member
      exact notGreater (Std.OrientedCmp.gt_of_lt (first _ member))
    rw [findEntry, List.mem_cons, Prod.mk.injEq]
    split
    next less =>
      have notRest := later (by simp [less])
      have different := ne_of_compare_lt less
      simp [different, notRest]
    next same =>
      obtain rfl : k = k' := Std.LawfulEqOrd.eq_of_compare same
      have notRest := later (by rw [same]; decide)
      simp [notRest, eq_comm]
    next greater =>
      have different := (ne_of_compare_lt (Std.OrientedCmp.lt_of_gt greater)).symm
      simp [different, ih others]

theorem find?_eq_some_iff {m : SortedMap κ ν} {k : κ} {v : ν} :
    m.find? k = some v ↔ (k, v) ∈ m.entries := findEntry_eq_some_iff m.sorted

theorem mem_entries_insert {m : SortedMap κ ν} {k : κ} {v : ν} {e : κ × ν} :
    e ∈ (m.insert k v).entries ↔ e = (k, v) ∨ e.1 ≠ k ∧ e ∈ m.entries := mem_insertEntry_iff m.sorted

@[simp] theorem find?_insert_self (m : SortedMap κ ν) (k : κ) (v : ν) :
    (m.insert k v).find? k = some v :=
  find?_eq_some_iff.mpr (mem_entries_insert.mpr (.inl rfl))

theorem find?_insert_of_ne (m : SortedMap κ ν) {k k' : κ} (v : ν) (other : k' ≠ k) :
    (m.insert k v).find? k' = m.find? k' := by
  apply Option.ext
  intro w
  rw [find?_eq_some_iff, find?_eq_some_iff, mem_entries_insert]
  simp [other]

theorem contains_iff {m : SortedMap κ ν} {k : κ} : m.contains k = true ↔ k ∈ m.keys := by
  rw [contains, Option.isSome_iff_exists, keys, List.mem_map]
  constructor
  · rintro ⟨v, found⟩
    exact ⟨(k, v), find?_eq_some_iff.mp found, rfl⟩
  · rintro ⟨⟨_, v⟩, member, rfl⟩
    exact ⟨v, find?_eq_some_iff.mpr member⟩

omit [Std.LawfulEqOrd κ] [Std.TransOrd κ] in
theorem sorted_keys (m : SortedMap κ ν) : m.keys.Pairwise fun a b => compare a b = .lt :=
  List.pairwise_map.mpr m.sorted

omit [Std.TransOrd κ] in
theorem nodup_keys (m : SortedMap κ ν) : m.keys.Nodup :=
  m.sorted.map _ fun _ _ => ne_of_compare_lt

/-- The last value is bound to the greatest key. -/
theorem find?_of_last? {m : SortedMap κ ν} {v : ν} (last : m.last? = some v) :
    ∃ k, m.find? k = some v ∧ ∀ k' v', m.find? k' = some v' → k' = k ∨ compare k' k = .lt := by
  obtain ⟨e, atEnd, rfl⟩ := Option.map_eq_some_iff.mp last
  obtain ⟨before, split⟩ := List.getLast?_eq_some_iff.mp atEnd
  have sorted := m.sorted
  rw [split, List.pairwise_append] at sorted
  refine ⟨e.1, find?_eq_some_iff.mpr (by simp [split]), fun k' v' found => ?_⟩
  have entry := find?_eq_some_iff.mp found
  rw [split] at entry
  rcases List.mem_append.mp entry with earlier | same
  · exact .inr (sorted.2.2 _ earlier _ List.mem_cons_self)
  · exact .inl (congrArg Prod.fst (List.mem_singleton.mp same))

theorem exists_last? {m : SortedMap κ ν} {k : κ} {v : ν} (found : m.find? k = some v) :
    ∃ v', m.last? = some v' := by
  have entry := find?_eq_some_iff.mp found
  rw [last?, List.getLast?_eq_some_getLast (List.ne_nil_of_mem entry)]
  exact ⟨_, rfl⟩

/-- Of the entries whose value passes a test, the first is that of the least key. -/
theorem find?_values_eq_some_iff {m : SortedMap κ ν} {passes : ν → Bool} {v : ν} :
    m.values.find? passes = some v ↔ ∃ k, m.find? k = some v ∧ passes v = true ∧
      ∀ k' v', m.find? k' = some v' → passes v' = true → compare k k' ≠ .gt := by
  have least : ∀ {v}, m.values.find? passes = some v → ∃ k, m.find? k = some v ∧ passes v = true ∧
      ∀ k' v', m.find? k' = some v' → passes v' = true → compare k k' ≠ .gt := by
    intro v first
    rw [values, List.find?_map, Option.map_eq_some_iff] at first
    obtain ⟨⟨k, v⟩, first, rfl⟩ := first
    obtain ⟨passed, before, after, split, failed⟩ := List.find?_eq_some_iff_append.mp first
    have sorted := m.sorted
    rw [split, List.pairwise_append, List.pairwise_cons] at sorted
    refine ⟨k, find?_eq_some_iff.mpr (by simp [split]), passed, fun k' v' found passed' => ?_⟩
    have entry := find?_eq_some_iff.mp found
    rw [split, List.mem_append, List.mem_cons] at entry
    rcases entry with earlier | same | later
    · exact absurd passed' (by simpa using failed _ earlier)
    · cases same
      have own : compare k k = .eq := Std.ReflCmp.compare_self
      rw [own]
      decide
    · rw [sorted.2.1.1 _ later]
      decide
  refine ⟨least, fun ⟨k, found, passed, first⟩ => ?_⟩
  have listed : v ∈ m.values := List.mem_map_of_mem (find?_eq_some_iff.mp found)
  obtain ⟨w, hit⟩ := Option.isSome_iff_exists.mp (List.find?_isSome.mpr ⟨v, listed, passed⟩)
  obtain ⟨k', found', passed', first'⟩ := least hit
  rw [hit, ← found', ← eq_of_not_gt (first k' w found' passed') (first' k v found passed), found]

theorem find?_mapValues {μ : Type} (m : SortedMap κ ν) (f : ν → μ) (k : κ) :
    (m.mapValues f).find? k = (m.find? k).map f := by
  apply Option.ext
  intro w
  rw [find?_eq_some_iff, Option.map_eq_some_iff]
  simp [mapValues, find?_eq_some_iff]

/-- A map is what it finds at each key. -/
theorem eq_of_find?_eq {m m' : SortedMap κ ν} (same : ∀ k, m.find? k = m'.find? k) : m = m' := by
  have distinct : ∀ m : SortedMap κ ν, m.entries.Nodup := fun m =>
    m.sorted.imp fun less equal => ne_of_compare_lt less (congrArg Prod.fst equal)
  have perm : m.entries.Perm m'.entries :=
    (List.perm_ext_iff_of_nodup (distinct m) (distinct m')).mpr fun ⟨k, v⟩ => by
      rw [← find?_eq_some_iff, ← find?_eq_some_iff, same k]
  have entries : m.entries = m'.entries := by
    refine perm.eq_of_pairwise (fun a b _ _ less greater => ?_) m.sorted m'.sorted
    rw [Std.OrientedCmp.gt_of_lt less] at greater
    cases greater
  cases m
  cases m'
  cases entries
  rfl

theorem insert_insert_self (m : SortedMap κ ν) (k : κ) (v w : ν) :
    (m.insert k v).insert k w = m.insert k w := by
  refine eq_of_find?_eq fun k' => ?_
  by_cases same : k' = k
  · rw [same, find?_insert_self, find?_insert_self]
  · rw [find?_insert_of_ne _ _ same, find?_insert_of_ne _ _ same, find?_insert_of_ne _ _ same]

theorem insert_comm (m : SortedMap κ ν) {k k' : κ} (v v' : ν) (other : k ≠ k') :
    (m.insert k v).insert k' v' = (m.insert k' v').insert k v := by
  refine eq_of_find?_eq fun a => ?_
  by_cases first : a = k
  · rw [first, find?_insert_of_ne _ _ other, find?_insert_self, find?_insert_self]
  · rw [find?_insert_of_ne _ v first]
    by_cases second : a = k'
    · rw [second, find?_insert_self, find?_insert_self]
    · rw [find?_insert_of_ne _ _ second, find?_insert_of_ne _ _ second, find?_insert_of_ne _ _ first]

section

variable {μ : Type} (f : ν → μ)

omit [Std.TransOrd κ] [Std.LawfulEqOrd κ] in
theorem keys_mapValues (m : SortedMap κ ν) : (m.mapValues f).keys = m.keys := by
  rw [keys, keys, mapValues, List.map_map]
  rfl

omit [Std.TransOrd κ] [Std.LawfulEqOrd κ] in
theorem values_mapValues (m : SortedMap κ ν) : (m.mapValues f).values = m.values.map f := by
  rw [values, values, mapValues, List.map_map, List.map_map]
  rfl

theorem contains_mapValues (m : SortedMap κ ν) (k : κ) : (m.mapValues f).contains k = m.contains k := by
  rw [contains, contains, find?_mapValues, Option.isSome_map]

theorem mapValues_insert (m : SortedMap κ ν) (k : κ) (v : ν) :
    (m.insert k v).mapValues f = (m.mapValues f).insert k (f v) := by
  refine eq_of_find?_eq fun k' => ?_
  rw [find?_mapValues]
  by_cases same : k' = k
  · rw [same, find?_insert_self, find?_insert_self, Option.map_some]
  · rw [find?_insert_of_ne _ _ same, find?_insert_of_ne _ _ same, find?_mapValues]

theorem mapValues_foldl_insert (l : List (κ × ν)) (m : SortedMap κ ν) :
    (l.foldl (fun m e => m.insert e.1 e.2) m).mapValues f =
      l.foldl (fun m e => m.insert e.1 (f e.2)) (m.mapValues f) := by
  induction l generalizing m with
  | nil => rfl
  | cons e l ih => rw [List.foldl_cons, List.foldl_cons, ih, mapValues_insert]

theorem mapValues_union (m other : SortedMap κ ν) :
    (m.union other).mapValues f = (m.mapValues f).union (other.mapValues f) := by
  rw [union, mapValues_foldl_insert, union, mapValues, mapValues, List.foldl_map]

end

theorem mem_keys_insert {m : SortedMap κ ν} {k k' : κ} {v : ν} :
    k' ∈ (m.insert k v).keys ↔ k' = k ∨ k' ∈ m.keys := by
  rw [← contains_iff, ← contains_iff, contains, contains]
  by_cases same : k' = k
  · subst same
    simp
  · rw [find?_insert_of_ne m v same]
    simp [same]

theorem find?_foldl_insert_of_not_mem {l : List (κ × ν)} {m : SortedMap κ ν} {k : κ}
    (none : k ∉ l.map Prod.fst) : (l.foldl (fun m e => m.insert e.1 e.2) m).find? k = m.find? k := by
  induction l generalizing m with
  | nil => rfl
  | cons e l ih =>
    rw [List.map_cons, List.mem_cons, not_or] at none
    rw [List.foldl_cons, ih none.2, find?_insert_of_ne m e.2 none.1]

theorem find?_foldl_insert {l : List (κ × ν)} {m : SortedMap κ ν} {k : κ} {v : ν}
    (same : ∀ e ∈ l, e.1 = k → e.2 = v) (member : k ∈ l.map Prod.fst) :
    (l.foldl (fun m e => m.insert e.1 e.2) m).find? k = some v := by
  induction l generalizing m with
  | nil => cases member
  | cons e l ih =>
    obtain ⟨first, same⟩ := List.forall_mem_cons.mp same
    rw [List.foldl_cons]
    by_cases later : k ∈ l.map Prod.fst
    · exact ih same later
    · rw [List.map_cons, List.mem_cons] at member
      have atFirst : k = e.1 := member.resolve_right later
      rw [find?_foldl_insert_of_not_mem later, ← first atFirst.symm, atFirst, find?_insert_self]

omit [Std.LawfulEqOrd κ] in
theorem foldl_insert_keys (l : List κ) (m : SortedMap κ ν) (f : κ → ν) :
    l.foldl (fun m k => m.insert k (f k)) m =
      (l.map fun k => (k, f k)).foldl (fun m e => m.insert e.1 e.2) m := by
  rw [List.foldl_map]

theorem find?_foldl_insert_keys {l : List κ} {m : SortedMap κ ν} (f : κ → ν) {k : κ} (member : k ∈ l) :
    (l.foldl (fun m k => m.insert k (f k)) m).find? k = some (f k) := by
  rw [foldl_insert_keys]
  refine find?_foldl_insert (fun e inside same => ?_) ?_
  · obtain ⟨k', _, rfl⟩ := List.mem_map.mp inside
    exact congrArg f same
  · simpa using member

theorem find?_foldl_insert_keys_of_not_mem {l : List κ} {m : SortedMap κ ν} (f : κ → ν) {k : κ}
    (other : k ∉ l) : (l.foldl (fun m k => m.insert k (f k)) m).find? k = m.find? k := by
  rw [foldl_insert_keys]
  exact find?_foldl_insert_of_not_mem (by simpa using other)

theorem mem_of_find?_foldl_insert {l : List (κ × ν)} {m : SortedMap κ ν} {k : κ} {v : ν}
    (found : (l.foldl (fun m e => m.insert e.1 e.2) m).find? k = some v) : (k, v) ∈ l ∨ m.find? k = some v := by
  induction l generalizing m with
  | nil => exact .inr found
  | cons e l ih =>
    rcases ih found with later | first
    · exact .inl (List.mem_cons_of_mem _ later)
    · by_cases same : k = e.1
      · rw [same, find?_insert_self, Option.some.injEq] at first
        exact .inl (by rw [same, ← first]; exact List.mem_cons_self)
      · rw [find?_insert_of_ne _ _ same] at first
        exact .inr first

theorem mem_of_find?_ofList {l : List (κ × ν)} {k : κ} {v : ν} (found : (ofList l).find? k = some v) :
    (k, v) ∈ l := (mem_of_find?_foldl_insert found).resolve_right fun none => nomatch none

theorem find?_ofList_eq_some_iff {l : List (κ × ν)} (distinct : (l.map Prod.fst).Nodup) {k : κ} {v : ν} :
    (ofList l).find? k = some v ↔ (k, v) ∈ l := by
  constructor
  · intro found
    by_cases member : k ∈ l.map Prod.fst
    · obtain ⟨e, inside, rfl⟩ := List.mem_map.mp member
      have same := find?_foldl_insert (m := empty) (fun e' inside' same =>
        congrArg Prod.snd (List.inj_on_of_nodup_map distinct inside' inside same)) member
      have value : v = e.2 := Option.some.inj (found.symm.trans same)
      exact value ▸ inside
    · have none := find?_foldl_insert_of_not_mem (m := (empty : SortedMap κ ν)) member
      rw [find?_empty] at none
      exact nomatch found.symm.trans none
  · intro inside
    exact find?_foldl_insert (fun e' inside' same =>
      congrArg Prod.snd (List.inj_on_of_nodup_map distinct inside' inside same)) (List.mem_map_of_mem inside)

theorem ofList_entries (m : SortedMap κ ν) : ofList m.entries = m := by
  refine eq_of_find?_eq fun k => Option.ext fun v => ?_
  rw [find?_ofList_eq_some_iff m.nodup_keys, find?_eq_some_iff]

theorem find?_union (m other : SortedMap κ ν) (k : κ) :
    (m.union other).find? k = (other.find? k).or (m.find? k) := by
  rw [union]
  cases found : other.find? k with
  | some v =>
    have entry := find?_eq_some_iff.mp found
    refine find?_foldl_insert (fun e inside same => ?_) (List.mem_map_of_mem entry)
    have unique := List.inj_on_of_nodup_map other.nodup_keys inside entry same
    rw [unique]
  | none =>
    refine find?_foldl_insert_of_not_mem fun member => ?_
    rw [← keys, ← contains_iff, contains, found] at member
    cases member

/-- What is bound in maps laid one over the other, of which no two bind one key differently. -/
theorem find?_foldl_union {l : List (SortedMap κ ν)} {k : κ} {v : ν}
    (single : ∀ m ∈ l, ∀ m' ∈ l, ∀ v v', m.find? k = some v → m'.find? k = some v' → v = v') :
    (l.foldl union empty).find? k = some v ↔ ∃ m ∈ l, m.find? k = some v := by
  have general : ∀ start : SortedMap κ ν, (l.foldl union start).find? k =
      (l.reverse.findSome? fun m => m.find? k).or (start.find? k) := by
    clear single
    induction l with
    | nil => exact fun _ => rfl
    | cons m l ih =>
      intro start
      rw [List.foldl_cons, ih, find?_union, List.reverse_cons, List.findSome?_append, Option.or_assoc,
        List.findSome?_singleton]
  rw [general, find?_empty, Option.or_none]
  have bound : ∀ {w : ν}, (l.reverse.findSome? fun m => m.find? k) = some w → ∃ m ∈ l, m.find? k = some w := by
    intro w found
    obtain ⟨m, member, same⟩ := List.exists_of_findSome?_eq_some found
    exact ⟨m, List.mem_reverse.mp member, same⟩
  refine ⟨bound, fun ⟨m, member, found⟩ => ?_⟩
  cases result : l.reverse.findSome? fun m => m.find? k with
  | none => cases (List.findSome?_eq_none_iff.mp result m (List.mem_reverse.mpr member)).symm.trans found
  | some w =>
    obtain ⟨m', member', found'⟩ := bound result
    exact congrArg some (single m' member' m member w v found' found)

end SortedMap

namespace SortedSet

theorem mem_toList_insert {s : SortedSet κ} {k k' : κ} :
    k' ∈ (s.insert k).toList ↔ k' = k ∨ k' ∈ s.toList := SortedMap.mem_keys_insert

theorem mem_toList_foldl {l : List κ} {s : SortedSet κ} {k : κ} :
    k ∈ (l.foldl SortedSet.insert s).toList ↔ k ∈ s.toList ∨ k ∈ l := by
  induction l generalizing s with
  | nil => simp
  | cons a l ih =>
    rw [List.foldl_cons, ih, mem_toList_insert, List.mem_cons, or_comm (a := k = a), or_assoc]

@[simp] theorem mem_toList_ofList {l : List κ} {k : κ} : k ∈ (ofList l).toList ↔ k ∈ l := by
  rw [ofList, mem_toList_foldl]
  exact or_iff_right (List.not_mem_nil)

/-- A set is told by its elements. -/
theorem eq_of_mem_toList {s t : SortedSet κ} (same : ∀ k, k ∈ s.toList ↔ k ∈ t.toList) : s = t := by
  refine SortedMap.eq_of_find?_eq fun k => ?_
  have atKey : (SortedMap.find? s k).isSome = (SortedMap.find? t k).isSome :=
    Bool.eq_iff_iff.mpr (SortedMap.contains_iff.trans ((same k).trans SortedMap.contains_iff.symm))
  cases inS : SortedMap.find? s k <;> cases inT : SortedMap.find? t k <;> simp_all

theorem ofList_toList (s : SortedSet κ) : ofList s.toList = s := by
  have keys : ∀ (l : List (κ × Unit)) (s : SortedSet κ), (l.map Prod.fst).foldl SortedSet.insert s =
      l.foldl (fun m e => SortedMap.insert m e.1 e.2) s := by
    intro l s
    rw [List.foldl_map]
    rfl
  exact (keys s.entries SortedMap.empty).trans s.ofList_entries

omit [Std.TransOrd κ] in
theorem size_le_one_iff {s : SortedSet κ} :
    s.size ≤ 1 ↔ ∀ a ∈ s.toList, ∀ b ∈ s.toList, a = b := by
  obtain ⟨entries, sorted⟩ := s
  match entries, sorted with
  | [], _ => simp [SortedMap.size, toList, SortedMap.keys]
  | [a], _ => simp [SortedMap.size, toList, SortedMap.keys]
  | a :: b :: rest, sorted =>
    have different := ne_of_compare_lt ((List.pairwise_cons.mp sorted).1 b List.mem_cons_self)
    refine ⟨fun small => absurd small (by simp [SortedMap.size]), fun same => ?_⟩
    exact absurd (same a.1 (by simp [toList, SortedMap.keys]) b.1 (by simp [toList, SortedMap.keys]))
      different

end SortedSet

end Deductions
