namespace Deductions

/-- From here on infinity is the nearest double. -/
def infinityThreshold : Nat := Nat.pow 2 1024 - Nat.pow 2 970

/-- The nearest number of 53 binary digits, whatever its size; a tie goes to the even one. -/
def roundToDouble (n : Nat) : Nat :=
  let unit := Nat.pow 2 (n.log2 - 52)
  let down := n / unit
  let above := 2 * (n % unit)
  if unit < above || (unit == above && down % 2 == 1) then (down + 1) * unit else down * unit

/-- Whether `value * 10 ^ exponent` is infinite as the product of two doubles. -/
def isInfiniteScaled (value exponent : Nat) : Bool :=
  value != 0 && (308 < exponent ||
    infinityThreshold ≤ roundToDouble value * roundToDouble (Nat.pow 10 exponent))

end Deductions
