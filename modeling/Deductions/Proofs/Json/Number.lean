import Deductions.Json.Number
import Deductions.Proofs.Numeral
import Mathlib.Data.Nat.Log

namespace Deductions

namespace Json

/-- What follows does not go on with the number before it. -/
def EndsNumber (rest : GappedText) : Prop :=
  ∀ c, rest.head? = some (some c) → c.isDigit = false ∧ c ≠ '.' ∧ c ≠ 'e' ∧ c ≠ 'E'

theorem endsNumber_nil : EndsNumber [] := fun _ none => nomatch none

theorem spanDigits_append {digits : List Char} (areDigits : ∀ c ∈ digits, c.isDigit = true)
    {rest : GappedText} (ends : EndsNumber rest) :
    spanDigits (digits.map some ++ rest) = (digits, rest) := by
  induction digits with
  | nil =>
    rw [List.map_nil, List.nil_append]
    match rest, ends with
    | [], _ => rfl
    | none :: rest, _ => rfl
    | some c :: rest, ends => rw [spanDigits, if_neg (by simp [(ends c rfl).1])]
  | cons d digits ih =>
    obtain ⟨isDigit, areDigits⟩ := List.forall_mem_cons.mp areDigits
    rw [List.map_cons, List.cons_append, spanDigits, if_pos isDigit, ih areDigits]

theorem readDigits_append {digits : List Char} (areDigits : ∀ c ∈ digits, c.isDigit = true)
    (some : digits ≠ []) {rest : GappedText} (ends : EndsNumber rest) :
    readDigits (digits.map Option.some ++ rest) = Option.some (digits, rest) := by
  rw [readDigits, spanDigits_append areDigits ends]
  cases digits with
  | nil => exact absurd rfl some
  | cons d digits => rfl

theorem readFraction_of_endsNumber {rest : GappedText} (ends : EndsNumber rest) :
    readFraction rest = some ([], rest) := by
  unfold readFraction
  split
  · exact absurd rfl (ends '.' rfl).2.1
  · rfl

theorem readExponent_of_endsNumber {rest : GappedText} (ends : EndsNumber rest) :
    readExponent rest = some ([], rest) := by
  unfold readExponent
  split
  next e rest =>
    obtain ⟨_, _, small, large⟩ := ends e rfl
    rw [if_neg (by simp [small, large])]
  · rfl

theorem le_foldl_digits (digits : List Char) (value : Nat) :
    value ≤ digits.foldl (fun value digit => value * 10 + digitValue digit) value := by
  induction digits generalizing value with
  | nil => exact Nat.le_refl _
  | cons d digits ih =>
    have grown := ih (value * 10 + digitValue d)
    rw [List.foldl_cons]
    omega

theorem addDigits_of_lt {digits : List Char} {value : Nat}
    (small : digits.foldl (fun value digit => value * 10 + digitValue digit) value < UInt64.size) :
    addDigits value digits =
      (digits.foldl (fun value digit => value * 10 + digitValue digit) value, 0) := by
  induction digits generalizing value with
  | nil => rfl
  | cons d digits ih =>
    have grown := le_foldl_digits digits (value * 10 + digitValue d)
    rw [List.foldl_cons] at small ⊢
    rw [addDigits, if_pos (Nat.lt_of_le_of_lt grown small), ih small]

theorem roundToDouble_le (n : Nat) : roundToDouble n ≤ 2 * n + 1 := by
  have small : Nat.pow 2 (n.log2 - 52) ≤ n + 1 := by
    rcases Nat.eq_zero_or_pos n with rfl | positive
    · decide
    · have below : 2 ^ (n.log2 - 52) ≤ 2 ^ n.log2 := Nat.pow_le_pow_right (by decide) (Nat.sub_le _ _)
      have atMost : 2 ^ n.log2 ≤ n := Nat.log2_self_le (Nat.pos_iff_ne_zero.mp positive)
      exact Nat.le_succ_of_le (Nat.le_trans below atMost)
  have whole := Nat.div_mul_le_self n (Nat.pow 2 (n.log2 - 52))
  rw [roundToDouble]
  split
  · rw [Nat.succ_mul]
    omega
  · omega

/-- A number below `2 ^ 64` is not infinite as a double. -/
theorem isInfinite_eq_false {digits : List Char} (small : digitsValue digits < UInt64.size) :
    isInfinite digits [] 0 = false := by
  have value : addDigits 0 digits = (digitsValue digits, 0) := addDigits_of_lt small
  have one : roundToDouble (Nat.pow 10 0) = 1 := by decide
  have rounded := roundToDouble_le (digitsValue digits)
  have large : 2 * UInt64.size < infinityThreshold := by decide +kernel
  have scale : (0 : Int) + (0 : Nat) + (0 : Nat) - (List.length ([] : List Char)) = 0 := rfl
  have finite : ¬ infinityThreshold ≤ roundToDouble (digitsValue digits) * 1 := by omega
  rw [isInfinite, value]
  simp only [addDigits, scale]
  rw [isInfiniteScaled, Int.toNat_zero, one, decide_eq_false finite]
  simp

theorem readNumber_toDigits {n : Nat} (small : n < UInt64.size) {rest : GappedText}
    (ends : EndsNumber rest) :
    readNumber ((Nat.toDigits 10 n).map some ++ rest) = some (.natural n, rest) := by
  have value : digitsValue (Nat.toDigits 10 n) = n := foldl_toDigits n
  have read : readDigits ((Nat.toDigits 10 n).map some ++ rest) = some (Nat.toDigits 10 n, rest) :=
    readDigits_append (fun _ => isDigit_of_mem_toDigits) Nat.toDigits_ne_nil ends
  have finite := isInfinite_eq_false (value.symm ▸ small)
  have plain : ((Nat.toDigits 10 n).head? == some '0' && (Nat.toDigits 10 n).length != 1) = false := by
    by_cases zero : (Nat.toDigits 10 n).head? = some '0'
    · rw [toDigits_eq_zero zero]
      rfl
    · simp [zero]
  rw [readNumber]
  · simp only [read, readFraction_of_endsNumber ends, readExponent_of_endsNumber ends, plain, finite,
      exponentValue, value, Option.bind_eq_bind, Option.bind_some, Bool.false_eq_true, if_false,
      List.isEmpty_nil, Bool.and_self, if_true]
  · -- no digit is a sign
    intro rest' signed
    cases digits : Nat.toDigits 10 n with
    | nil => exact Nat.toDigits_ne_nil digits
    | cons d digits' =>
      have isDigit : d.isDigit = true := isDigit_of_mem_toDigits (digits ▸ List.mem_cons_self)
      rw [digits] at signed
      cases signed
      cases isDigit

end Json

end Deductions
