namespace Deductions

/-- A finite map: its entries in strictly increasing key order. -/
structure SortedMap (κ ν : Type) [Ord κ] where
  entries : List (κ × ν)
  sorted : entries.Pairwise fun a b => compare a.1 b.1 = .lt
deriving DecidableEq

/-- A finite set: a map that carries nothing at its keys. -/
abbrev SortedSet (κ : Type) [Ord κ] := SortedMap κ Unit

namespace SortedMap

variable {κ ν μ : Type} [Ord κ]

def empty : SortedMap κ ν := ⟨[], .nil⟩

instance : EmptyCollection (SortedMap κ ν) := ⟨empty⟩

instance : Inhabited (SortedMap κ ν) := ⟨empty⟩

/-- The entries with `k` bound to `v`; an entry of an equal key gives way. -/
def insertEntry (k : κ) (v : ν) : List (κ × ν) → List (κ × ν)
  | [] => [(k, v)]
  | (k', v') :: rest =>
    match compare k k' with
    | .lt => (k, v) :: (k', v') :: rest
    | .eq => (k, v) :: rest
    | .gt => (k', v') :: insertEntry k v rest

def findEntry (k : κ) : List (κ × ν) → Option ν
  | [] => none
  | (k', v) :: rest =>
    match compare k k' with
    | .lt => none
    | .eq => some v
    | .gt => findEntry k rest

theorem mem_insertEntry {k : κ} {v : ν} {e : κ × ν} {l : List (κ × ν)} :
    e ∈ insertEntry k v l → e = (k, v) ∨ e ∈ l := by
  induction l with
  | nil => simp [insertEntry]
  | cons head rest ih =>
    obtain ⟨k', v'⟩ := head
    rw [insertEntry]
    split
    · simp
    · intro member
      rcases List.mem_cons.mp member with rfl | member
      · exact Or.inl rfl
      · exact Or.inr (List.mem_cons_of_mem _ member)
    · intro member
      rcases List.mem_cons.mp member with rfl | member
      · exact Or.inr (List.mem_cons_self ..)
      · exact (ih member).imp_right (List.mem_cons_of_mem _)

theorem insertEntry_sorted [Std.TransOrd κ] (k : κ) (v : ν) {l : List (κ × ν)}
    (sorted : l.Pairwise fun a b => compare a.1 b.1 = .lt) :
    (insertEntry k v l).Pairwise fun a b => compare a.1 b.1 = .lt := by
  induction l with
  | nil => simp [insertEntry]
  | cons head rest ih =>
    obtain ⟨k', v'⟩ := head
    obtain ⟨first, others⟩ := List.pairwise_cons.mp sorted
    rw [insertEntry]
    split
    next less =>
      refine List.pairwise_cons.mpr ⟨fun e member => ?_, sorted⟩
      rcases List.mem_cons.mp member with rfl | member
      · exact less
      · exact Std.TransCmp.lt_trans less (first e member)
    next same =>
      exact List.pairwise_cons.mpr
        ⟨fun e member => Std.TransCmp.lt_of_eq_of_lt same (first e member), others⟩
    next greater =>
      refine List.pairwise_cons.mpr ⟨fun e member => ?_, ih others⟩
      rcases mem_insertEntry member with rfl | member
      · exact Std.OrientedCmp.lt_of_gt greater
      · exact first e member

def insert [Std.TransOrd κ] (m : SortedMap κ ν) (k : κ) (v : ν) : SortedMap κ ν :=
  ⟨insertEntry k v m.entries, insertEntry_sorted k v m.sorted⟩

/-- The value bound to `k`. -/
def find? (m : SortedMap κ ν) (k : κ) : Option ν := findEntry k m.entries

def contains (m : SortedMap κ ν) (k : κ) : Bool := (m.find? k).isSome

def keys (m : SortedMap κ ν) : List κ := m.entries.map Prod.fst

def values (m : SortedMap κ ν) : List ν := m.entries.map Prod.snd

def size (m : SortedMap κ ν) : Nat := m.entries.length

def isEmpty (m : SortedMap κ ν) : Bool := m.entries.isEmpty

/-- The map of a list of entries; of two with an equal key the later one counts. -/
def ofList [Std.TransOrd κ] (l : List (κ × ν)) : SortedMap κ ν :=
  l.foldl (fun m e => m.insert e.1 e.2) empty

/-- All of `m` overlaid with all of `other`. -/
def union [Std.TransOrd κ] (m other : SortedMap κ ν) : SortedMap κ ν :=
  other.entries.foldl (fun m e => m.insert e.1 e.2) m

def filter (m : SortedMap κ ν) (keep : κ → ν → Bool) : SortedMap κ ν :=
  ⟨m.entries.filter fun e => keep e.1 e.2, m.sorted.filter _⟩

def mapValues (m : SortedMap κ ν) (f : ν → μ) : SortedMap κ μ :=
  ⟨m.entries.map fun e => (e.1, f e.2), m.sorted.map _ fun _ _ less => less⟩

/-- The value of the greatest key. -/
def last? (m : SortedMap κ ν) : Option ν := m.entries.getLast?.map Prod.snd

end SortedMap

namespace SortedSet

variable {κ : Type} [Ord κ]

def insert [Std.TransOrd κ] (s : SortedSet κ) (k : κ) : SortedSet κ := SortedMap.insert s k ()

def ofList [Std.TransOrd κ] (l : List κ) : SortedSet κ := l.foldl SortedSet.insert SortedMap.empty

def toList (s : SortedSet κ) : List κ := SortedMap.keys s

end SortedSet

end Deductions
