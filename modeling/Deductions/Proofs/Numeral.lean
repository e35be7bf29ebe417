import Mathlib.Tactic.Common

namespace Deductions

/-- The number that decimal digits write. -/
theorem foldl_toDigits (n : Nat) :
    (Nat.toDigits 10 n).foldl (fun value digit => value * 10 + (digit.toNat - 48)) 0 = n := by
  have commuted : (fun (value : Nat) (digit : Char) => value * 10 + (digit.toNat - 48)) =
      fun value digit => 10 * value + (digit.toNat - '0'.toNat) := by
    funext value digit
    rw [Nat.mul_comm]
    rfl
  rw [commuted]
  exact Nat.ofDigitChars_ten_toDigits

theorem isDigit_of_mem_toDigits {n : Nat} {c : Char} (member : c ∈ Nat.toDigits 10 n) :
    c.isDigit = true := Nat.isDigit_of_mem_toDigits (by decide) (by decide) member

theorem exists_toDigits_cons (n : Nat) :
    ∃ d digits, Nat.toDigits 10 n = d :: digits ∧ d.isDigit = true := by
  cases digits : Nat.toDigits 10 n with
  | nil => exact absurd digits Nat.toDigits_ne_nil
  | cons d digits' => exact ⟨d, digits', rfl, isDigit_of_mem_toDigits (digits ▸ List.mem_cons_self)⟩

/-- Only zero is written with a zero in front. -/
theorem toDigits_eq_zero {n : Nat} (zero : (Nat.toDigits 10 n).head? = some '0') :
    Nat.toDigits 10 n = ['0'] := by
  induction n using Nat.strongRecOn with
  | ind n ih =>
    by_cases small : n < 10
    · rw [Nat.toDigits_of_lt_base small] at zero ⊢
      rw [Option.some.inj zero]
    · have large : 10 ≤ n := Nat.le_of_not_lt small
      rw [Nat.toDigits_of_base_le (by decide) large] at zero
      have first : (Nat.toDigits 10 (n / 10)).head? = some '0' := by
        obtain ⟨d, digits, written, _⟩ := exists_toDigits_cons (n / 10)
        rw [written] at zero ⊢
        exact zero
      have value := foldl_toDigits (n / 10)
      rw [ih (n / 10) (by omega) first] at value
      have none : 0 = n / 10 := value
      omega

end Deductions
