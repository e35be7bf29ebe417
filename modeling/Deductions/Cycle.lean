import Deductions.SortedMap

namespace Deductions

/-- The successors of each element; an element that is no key has none. -/
abbrev Relation (κ : Type) [Ord κ] := SortedMap κ (List κ)

namespace Relation

variable {κ : Type} [Ord κ] [Std.TransOrd κ] [DecidableEq κ]

def successors (r : Relation κ) (a : κ) : List κ := (r.find? a).getD []

/-- The number of successors of all elements together. -/
def size (r : Relation κ) : Nat := r.values.flatten.length

/-- The elements of `seen` and those that can be reached from `todo` around them. Each element
enters `todo` at most once for each element it succeeds, which bounds the fuel. -/
def reach (r : Relation κ) : Nat → List κ → SortedSet κ → SortedSet κ
  | 0, _, seen => seen
  | _, [], seen => seen
  | fuel + 1, a :: todo, seen =>
    if seen.contains a then r.reach fuel todo seen
    else r.reach fuel (r.successors a ++ todo) (SortedSet.insert seen a)

/-- The elements that can be reached from the successors of `a`. -/
def reachable (r : Relation κ) (a : κ) : SortedSet κ :=
  r.reach (2 * r.size + 1) (r.successors a) SortedMap.empty

/-- Whether `a` reaches itself. -/
def onCycle (r : Relation κ) (a : κ) : Bool := (r.reachable a).contains a

/-- The least element of a list. -/
def least (first : κ) (rest : List κ) : κ :=
  rest.foldl (fun best a => if compare a best = .lt then a else best) first

/-- The list turned so that it starts with its least element, which also closes it. -/
def close : List κ → List κ
  | [] => []
  | first :: rest =>
    let start := least first rest
    let l := first :: rest
    l.dropWhile (· ≠ start) ++ l.takeWhile (· ≠ start) ++ [start]

/-- The state of a search: the elements visited, and the cycles found with their members. -/
structure Search (κ : Type) [Ord κ] where
  visited : SortedSet κ := SortedMap.empty
  found : List (SortedSet κ × List κ) := []

/-- Adds the cycle through `members`, unless one of the same members was found before. -/
def Search.record (s : Search κ) (members : List κ) : Search κ :=
  let key := SortedSet.ofList members
  if s.found.any fun f => f.1 == key then s
  else { s with found := s.found ++ [(key, close members)] }

/-- Searches depth first from `a`, to which the elements of `stack` lead. No element but the last
stands on the stack twice, which bounds the fuel. -/
def search (r : Relation κ) : Nat → List κ → Search κ → κ → Search κ
  | 0, _, s, _ => s
  | fuel + 1, stack, s, a =>
    if stack.contains a then s.record (stack.dropWhile (· ≠ a))
    else if s.visited.contains a then s
    else
      (r.successors a).foldl (r.search fuel (stack ++ [a]))
        { s with visited := SortedSet.insert s.visited a }

/-- The cycles that a depth-first search in the order of the elements comes upon, sorted, one for
each set of members. -/
def cycles (r : Relation κ) : List (List κ) :=
  let s := r.keys.foldl (r.search (SortedMap.size r + 2) []) {}
  (s.found.map Prod.snd).mergeSort fun a b => (compare a b).isLE

/-- The elements each element succeeds or is succeeded by. -/
def symmetric (r : Relation κ) : Relation κ :=
  r.entries.foldl (fun m (a, bs) =>
    bs.foldl (fun m b =>
      let m := SortedMap.insert m a ((SortedMap.find? m a).getD [] ++ [b])
      SortedMap.insert m b ((SortedMap.find? m b).getD [] ++ [a])) m) SortedMap.empty

/-- The connected components of the elements that are related to any, each sorted, in the order of
their least elements. -/
def components (r : Relation κ) : List (List κ) :=
  let both := r.symmetric
  both.keys.foldl (fun groups a =>
    if groups.any fun group => group.contains a then groups
    else groups ++ [SortedSet.toList (both.reach (2 * both.size + 2) [a] SortedMap.empty)]) []

end Relation

end Deductions
