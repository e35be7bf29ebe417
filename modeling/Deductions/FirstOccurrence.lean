namespace Deductions

/-- The elements whose key no earlier element has. -/
def firstBy {α β : Type} [BEq β] (key : α → β) (l : List α) : List α :=
  l.foldl (fun seen a => if seen.any fun b => key b == key a then seen else seen ++ [a]) []

/-- The list without repetitions; the first occurrence of each element stays. -/
def firstOccurrences {α : Type} [BEq α] (l : List α) : List α := firstBy id l

end Deductions
