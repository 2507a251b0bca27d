import Mathlib.Data.List.Basic
import GalataVault.Server.Records

/-!
# Numbers in texts

An unsigned number is read from its decimal digits, with any number of zeros in front.
Padded with zeros to one width, numbers order as their texts do.
-/

namespace GalataVault.Server

theorem foldl_digits (n : Nat) (text : List Char) :
    text.foldl (fun n c => n * 10 + (c.toNat - '0'.toNat)) n = Nat.ofDigitChars 10 text n := by
  unfold Nat.ofDigitChars
  congr 1
  funext n c
  rw [Nat.mul_comm]

/-- A text of digits is read as the number they spell, if the type holds it. -/
theorem parseUnsigned_digits {bound : Nat} {text : List Char} (some_digit : text ≠ [])
    (digits : ∀ c ∈ text, c.isDigit = true) :
    parseUnsigned bound text =
      if Nat.ofDigitChars 10 text 0 < bound then some (Nat.ofDigitChars 10 text 0) else none := by
  cases text with
  | nil => exact absurd rfl some_digit
  | cons c rest =>
    have unsigned : c ≠ '+' := by
      rintro rfl
      exact absurd (digits '+' List.mem_cons_self) (by decide)
    have none : ((c :: rest).any fun c => !c.isDigit) = false := by
      rw [List.any_eq_false]
      intro d member
      simp [digits d member]
    have whole : parseUnsigned bound (c :: rest) =
        if (c :: rest).foldl (fun n c => n * 10 + (c.toNat - '0'.toNat)) 0 < bound then
          some ((c :: rest).foldl (fun n c => n * 10 + (c.toNat - '0'.toNat)) 0) else Option.none := by
      unfold parseUnsigned
      split
      · next plus same => exact absurd (List.cons.inj same).1 unsigned
      · simp only [none, List.cons_ne_nil, Bool.false_eq_true, or_self, if_false]
    rw [whole, foldl_digits]

/-- A number is read from its decimal text. -/
theorem parseUnsigned_repr {bound n : Nat} (small : n < bound) : parseUnsigned bound (Nat.repr n).toList = some n := by
  have digits : ∀ c ∈ Nat.toDigits 10 n, c.isDigit = true := fun c member =>
    Nat.isDigit_of_mem_toDigits (by decide) (by decide) member
  rw [Nat.toList_repr, parseUnsigned_digits Nat.toDigits_ne_nil digits, Nat.ofDigitChars_ten_toDigits, if_pos small]

/-! ## Padded numbers -/

/-- A number in decimal digits, with zeros in front up to a width. -/
def padded (width n : Nat) : List Char := List.leftpad width '0' (Nat.toDigits 10 n)

theorem padded_digits (width n : Nat) : ∀ c ∈ padded width n, c.isDigit = true := by
  intro c member
  rw [padded, List.leftpad, List.mem_append, List.mem_replicate] at member
  obtain ⟨_, rfl⟩ | member := member
  · decide
  · exact Nat.isDigit_of_mem_toDigits (by decide) (by decide) member

theorem padded_value (width n : Nat) : Nat.ofDigitChars 10 (padded width n) 0 = n := by
  rw [padded, List.leftpad, Nat.ofDigitChars_append, Nat.ofDigitChars_replicate_zero, Nat.mul_zero,
    Nat.ofDigitChars_ten_toDigits]

theorem padded_length {width n : Nat} (wide : 0 < width) (fits : n < 10 ^ width) : (padded width n).length = width := by
  have short : (Nat.toDigits 10 n).length ≤ width := (Nat.length_toDigits_le_iff (by decide) wide).mpr fits
  rw [padded, List.length_leftpad, Nat.max_eq_left short]

theorem padded_injective (width : Nat) : Function.Injective (padded width) := by
  intro m n same
  rw [← padded_value width m, same, padded_value]

/-- A padded number is read as the number. -/
theorem parseUnsigned_padded {bound n width : Nat} (small : n < bound) :
    parseUnsigned bound (padded width n) = some n := by
  have some_digit : padded width n ≠ [] := by
    intro empty
    have none : Nat.toDigits 10 n = [] := (List.append_eq_nil_iff.mp empty).2
    exact Nat.toDigits_ne_nil none
  rw [parseUnsigned_digits some_digit (padded_digits width n), padded_value, if_pos small]

theorem digit_bounds {c : Char} (digit : c.isDigit = true) : 48 ≤ c.toNat ∧ c.toNat < 58 := by
  rw [Char.isDigit, Bool.and_eq_true, decide_eq_true_eq, decide_eq_true_eq] at digit
  have least : 48 ≤ c.toNat := UInt32.le_iff_toNat_le.mp digit.1
  have most : c.toNat ≤ 57 := UInt32.le_iff_toNat_le.mp digit.2
  omega

/-- Digits spell less than the power of ten of their length. -/
theorem ofDigitChars_lt {text : List Char} (digits : ∀ c ∈ text, c.isDigit = true) :
    Nat.ofDigitChars 10 text 0 < 10 ^ text.length := by
  induction text with
  | nil => decide
  | cons c rest inductionHypothesis =>
    have tail := inductionHypothesis fun d member => digits d (List.mem_cons_of_mem c member)
    have head := digit_bounds (digits c List.mem_cons_self)
    rw [Nat.ofDigitChars_cons, Nat.ofDigitChars_eq_ofDigitChars_zero, List.length_cons, Nat.pow_succ]
    have most : 10 ^ rest.length * (10 * 0 + (c.toNat - '0'.toNat)) ≤ 10 ^ rest.length * 9 :=
      Nat.mul_le_mul_left _ (by simp only [Char.reduceToNat]; omega)
    omega

/-- Numbers written with one more digit compare by that digit, then by the rest. -/
theorem mul_add_lt_iff {width m n x y : Nat} (left : x < width) (right : y < width) :
    width * m + x < width * n + y ↔ m < n ∨ m = n ∧ x < y := by
  obtain below | rfl | above := Nat.lt_trichotomy m n
  · have step : width * m + width ≤ width * n := Nat.mul_le_mul_left width below
    exact iff_of_true (by omega) (.inl below)
  · simp
  · have step : width * n + width ≤ width * m := Nat.mul_le_mul_left width above
    exact iff_of_false (by omega) (by omega)

/-- Among digits of one length, the lexicographic order is the order of the numbers. -/
theorem digits_lt_iff {left right : List Char} (digitsLeft : ∀ c ∈ left, c.isDigit = true)
    (digitsRight : ∀ c ∈ right, c.isDigit = true) (same : left.length = right.length) :
    left < right ↔ Nat.ofDigitChars 10 left 0 < Nat.ofDigitChars 10 right 0 := by
  induction left generalizing right with
  | nil =>
    cases right with
    | nil => simp
    | cons d right => cases same
  | cons c left inductionHypothesis =>
    cases right with
    | nil => cases same
    | cons d right =>
      have lengths : left.length = right.length := Nat.succ.inj same
      have tailLeft : ∀ c ∈ left, c.isDigit = true := fun e member => digitsLeft e (List.mem_cons_of_mem c member)
      have tailRight : ∀ c ∈ right, c.isDigit = true := fun e member => digitsRight e (List.mem_cons_of_mem d member)
      have shortLeft := ofDigitChars_lt tailLeft
      have shortRight := ofDigitChars_lt tailRight
      have headLeft := digit_bounds (digitsLeft c List.mem_cons_self)
      have headRight := digit_bounds (digitsRight d List.mem_cons_self)
      have heads : c < d ↔ c.toNat < d.toNat := UInt32.lt_iff_toNat_lt
      have equal : c = d ↔ c.toNat = d.toNat := ⟨congrArg Char.toNat, Char.toNat_inj.mp⟩
      rw [List.cons_lt_cons_iff, inductionHypothesis tailLeft tailRight lengths, heads, equal, Nat.ofDigitChars_cons,
        Nat.ofDigitChars_cons, @Nat.ofDigitChars_eq_ofDigitChars_zero left (10 * 0 + (c.toNat - '0'.toNat)),
        @Nat.ofDigitChars_eq_ofDigitChars_zero right (10 * 0 + (d.toNat - '0'.toNat)), lengths]
      rw [lengths] at shortLeft
      rw [mul_add_lt_iff shortLeft shortRight]
      simp only [Char.reduceToNat]
      omega

theorem padded_lt_iff {width m n : Nat} (wide : 0 < width) (left : m < 10 ^ width) (right : n < 10 ^ width) :
    padded width m < padded width n ↔ m < n := by
  rw [digits_lt_iff (padded_digits width m) (padded_digits width n) (by rw [padded_length wide left, padded_length wide right]),
    padded_value, padded_value]

end GalataVault.Server
