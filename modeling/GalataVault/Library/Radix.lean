import Mathlib.Data.Nat.Digits.Lemmas
import Mathlib.Tactic.Ring
import Mathlib.Tactic.Linarith

/-!
# Positional numerals, most significant digit first

A list of digits spells a number. Two passes over the digits carry the arithmetic of a
change of base: dividing the number by another base, from its first digit on, and
multiplying it and adding, from its last digit back. Repeating the first spells the number
in the other base; repeating the second reads it back, digit by digit, for as long as it
fits.
-/

namespace Radix

/-- The number the digits spell. -/
def value (base : Nat) (digits : List Nat) : Nat := Nat.ofDigits base digits.reverse

variable {base : Nat}

@[simp] theorem value_nil : value base [] = 0 := rfl

theorem value_append (front back : List Nat) :
    value base (front ++ back) = value base front * base ^ back.length + value base back := by
  unfold value
  rw [List.reverse_append, Nat.ofDigits_append, List.length_reverse]
  ring

theorem value_cons (digit : Nat) (rest : List Nat) :
    value base (digit :: rest) = digit * base ^ rest.length + value base rest := by
  have apart := @value_append base [digit] rest
  simpa [value] using apart

theorem value_concat (digits : List Nat) (last : Nat) : value base (digits ++ [last]) = value base digits * base + last := by
  have apart := @value_append base digits [last]
  simpa [value] using apart

/-- Digits below the base spell a number below the base's power. -/
theorem value_lt {digits : List Nat} (large : 1 < base) (small : ∀ d ∈ digits, d < base) :
    value base digits < base ^ digits.length := by
  have bounded : Nat.ofDigits base digits.reverse < base ^ digits.reverse.length :=
    Nat.ofDigits_lt_base_pow_length large (by simpa using small)
  simpa [value] using bounded

/-- Equally many digits below the base that spell the same number are the same digits. -/
theorem value_injective {left right : List Nat} (large : 1 < base) (size : left.length = right.length)
    (smallLeft : ∀ d ∈ left, d < base) (smallRight : ∀ d ∈ right, d < base)
    (same : value base left = value base right) : left = right := by
  have reversed : left.reverse = right.reverse :=
    Nat.ofDigits_inj_of_len_eq large (by simpa using size) (by simpa using smallLeft) (by simpa using smallRight) same
  exact List.reverse_injective reversed

/-- The last `width` digits of a number. -/
def digits (base : Nat) : Nat → Nat → List Nat
  | 0, _ => []
  | width + 1, n => digits base width (n / base) ++ [n % base]

@[simp] theorem digits_length (width n : Nat) : (digits base width n).length = width := by
  induction width generalizing n with
  | zero => rfl
  | succ width inductionHypothesis => simp [digits, inductionHypothesis]

theorem digits_small (positive : 0 < base) (width n : Nat) : ∀ d ∈ digits base width n, d < base := by
  induction width generalizing n with
  | zero => simp [digits]
  | succ width inductionHypothesis =>
    simp only [digits, List.forall_mem_append, List.forall_mem_singleton]
    exact ⟨inductionHypothesis _, Nat.mod_lt _ positive⟩

theorem value_digits (width n : Nat) : value base (digits base width n) = n % base ^ width := by
  induction width generalizing n with
  | zero => simp [digits, Nat.mod_one]
  | succ width inductionHypothesis =>
    rw [digits, value_concat, inductionHypothesis, pow_succ, Nat.mul_comm (base ^ width), Nat.mod_mul]
    ring

/-- A number's digits are those that spell it. -/
theorem digits_value (large : 1 < base) {spelled : List Nat} (small : ∀ d ∈ spelled, d < base) :
    digits base spelled.length (value base spelled) = spelled := by
  apply value_injective large (by simp) (digits_small (Nat.zero_lt_of_lt large) _ _) small
  rw [value_digits, Nat.mod_eq_of_lt (value_lt large small)]

/-! ## Division -/

/-- Divide the digits by `divisor`, after a remainder of the digits before them. -/
def divide (base divisor : Nat) : Nat → List Nat → List Nat × Nat
  | rem, [] => ([], rem)
  | rem, digit :: rest =>
    let acc := rem * base + digit
    let divided := divide base divisor (acc % divisor) rest
    (acc / divisor :: divided.1, divided.2)

@[simp] theorem divide_length (divisor rem : Nat) (digits : List Nat) :
    (divide base divisor rem digits).1.length = digits.length := by
  induction digits generalizing rem with
  | nil => rfl
  | cons digit rest inductionHypothesis => simp [divide, inductionHypothesis]

/-- Quotient and remainder make up what was divided. -/
theorem divide_value (divisor rem : Nat) (digits : List Nat) :
    value base (divide base divisor rem digits).1 * divisor + (divide base divisor rem digits).2 =
      rem * base ^ digits.length + value base digits := by
  induction digits generalizing rem with
  | nil => simp [divide]
  | cons digit rest inductionHypothesis =>
    have tail := inductionHypothesis ((rem * base + digit) % divisor)
    have here := Nat.div_add_mod (rem * base + digit) divisor
    simp only [divide, value_cons, divide_length, List.length_cons]
    calc ((rem * base + digit) / divisor * base ^ rest.length +
            value base (divide base divisor ((rem * base + digit) % divisor) rest).1) * divisor +
          (divide base divisor ((rem * base + digit) % divisor) rest).2
        = (rem * base + digit) / divisor * base ^ rest.length * divisor +
            ((rem * base + digit) % divisor * base ^ rest.length + value base rest) := by
          rw [← tail]
          ring
      _ = (divisor * ((rem * base + digit) / divisor) + (rem * base + digit) % divisor) * base ^ rest.length +
            value base rest := by ring
      _ = rem * base ^ (rest.length + 1) + (digit * base ^ rest.length + value base rest) := by
          rw [here]
          ring

theorem divide_rem_lt {divisor rem : Nat} (below : rem < divisor) (digits : List Nat) :
    (divide base divisor rem digits).2 < divisor := by
  induction digits generalizing rem with
  | nil => exact below
  | cons digit rest inductionHypothesis => exact inductionHypothesis (Nat.mod_lt _ (by omega))

/-- The remainder after all digits is that of the number. -/
theorem divide_rem {divisor : Nat} (positive : 0 < divisor) (digits : List Nat) :
    (divide base divisor 0 digits).2 = value base digits % divisor := by
  have parts := @divide_value base divisor 0 digits
  have below := @divide_rem_lt base _ _ positive digits
  rw [Nat.zero_mul, Nat.zero_add] at parts
  rw [← parts, Nat.mul_add_mod_of_lt below]

/-- The quotient of all digits spells the quotient of the number. -/
theorem divide_quotient {divisor : Nat} (positive : 0 < divisor) (digits : List Nat) :
    value base (divide base divisor 0 digits).1 = value base digits / divisor := by
  have parts := @divide_value base divisor 0 digits
  have below := @divide_rem_lt base _ _ positive digits
  rw [Nat.zero_mul, Nat.zero_add] at parts
  rw [← parts, Nat.mul_comm, Nat.mul_add_div positive, Nat.div_eq_of_lt below, Nat.add_zero]

/-! ## Multiplication -/

/-- Multiply the digits by `factor` and add `carry`, from the last digit back. What does not
fit is carried out in front. -/
def multiplyAdd (base factor carry : Nat) : List Nat → List Nat × Nat
  | [] => ([], carry)
  | digit :: rest =>
    let multiplied := multiplyAdd base factor carry rest
    let acc := digit * factor + multiplied.2
    (acc % base :: multiplied.1, acc / base)

@[simp] theorem multiplyAdd_length (factor carry : Nat) (digits : List Nat) :
    (multiplyAdd base factor carry digits).1.length = digits.length := by
  induction digits with
  | nil => rfl
  | cons digit rest inductionHypothesis => simp [multiplyAdd, inductionHypothesis]

theorem multiplyAdd_value (factor carry : Nat) (digits : List Nat) :
    (multiplyAdd base factor carry digits).2 * base ^ digits.length +
        value base (multiplyAdd base factor carry digits).1 =
      value base digits * factor + carry := by
  induction digits with
  | nil => simp [multiplyAdd]
  | cons digit rest inductionHypothesis =>
    have here := Nat.div_add_mod (digit * factor + (multiplyAdd base factor carry rest).2) base
    simp only [multiplyAdd, value_cons, multiplyAdd_length, List.length_cons]
    generalize multiplyAdd base factor carry rest = multiplied at *
    calc (digit * factor + multiplied.2) / base * base ^ (rest.length + 1) +
          ((digit * factor + multiplied.2) % base * base ^ rest.length + value base multiplied.1)
        = (base * ((digit * factor + multiplied.2) / base) + (digit * factor + multiplied.2) % base) *
            base ^ rest.length + value base multiplied.1 := by ring
      _ = digit * factor * base ^ rest.length +
            (multiplied.2 * base ^ rest.length + value base multiplied.1) := by
          rw [here]
          ring
      _ = (digit * base ^ rest.length + value base rest) * factor + carry := by
          rw [inductionHypothesis]
          ring

theorem multiplyAdd_small (positive : 0 < base) (factor carry : Nat) (digits : List Nat) :
    ∀ d ∈ (multiplyAdd base factor carry digits).1, d < base := by
  induction digits with
  | nil => simp [multiplyAdd]
  | cons digit rest inductionHypothesis =>
    simp only [multiplyAdd, List.forall_mem_cons]
    exact ⟨Nat.mod_lt _ positive, inductionHypothesis⟩

/-- Nothing is carried out exactly when the result fits the digits there are. -/
theorem multiplyAdd_carry_eq_zero_iff (large : 1 < base) (factor carry : Nat) (digits : List Nat) :
    (multiplyAdd base factor carry digits).2 = 0 ↔ value base digits * factor + carry < base ^ digits.length := by
  have parts := @multiplyAdd_value base factor carry digits
  have low := value_lt large (multiplyAdd_small (Nat.zero_lt_of_lt large) factor carry digits)
  rw [multiplyAdd_length] at low
  generalize multiplyAdd base factor carry digits = multiplied at *
  constructor
  · intro none
    rw [none, Nat.zero_mul, Nat.zero_add] at parts
    omega
  · intro fits
    by_contra some
    have carried : 1 * base ^ digits.length ≤ multiplied.2 * base ^ digits.length :=
      Nat.mul_le_mul_right _ (by omega)
    omega

/-- A result that fits is what the digits then spell. -/
theorem multiplyAdd_fits {factor carry : Nat} {digits : List Nat} (none : (multiplyAdd base factor carry digits).2 = 0) :
    value base (multiplyAdd base factor carry digits).1 = value base digits * factor + carry := by
  have parts := @multiplyAdd_value base factor carry digits
  rwa [none, Nat.zero_mul, Nat.zero_add] at parts

end Radix
