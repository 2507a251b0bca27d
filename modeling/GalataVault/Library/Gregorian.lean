import Mathlib.Tactic.Common
import Mathlib.Tactic.IntervalCases

/-!
# The proleptic Gregorian calendar

The rules of the calendar, carried on to all years, and the number of days from the first of
January 1970 to a date. The number is defined by the years and months that have passed; that
it counts the days is shown by the rules alone: the day after a date has the next number. A
date is determined by its number.
-/

namespace Gregorian

/-- A year that 4 divides, but of the years that 100 divides only every fourth. -/
def leap (year : Int) : Bool := year % 4 = 0 && (year % 100 ≠ 0 || year % 400 = 0)

/-- The days of a month. -/
def monthLength (year : Int) : Nat → Nat
  | 2 => if leap year then 29 else 28
  | 4 | 6 | 9 | 11 => 30
  | _ => 31

structure Date where
  year : Int
  month : Nat
  day : Nat
deriving DecidableEq

namespace Date

structure Valid (date : Date) : Prop where
  month : 1 ≤ date.month ∧ date.month ≤ 12
  day : 1 ≤ date.day ∧ date.day ≤ monthLength date.year date.month

instance (date : Date) : Decidable date.Valid :=
  decidable_of_iff ((1 ≤ date.month ∧ date.month ≤ 12) ∧ 1 ≤ date.day ∧ date.day ≤ monthLength date.year date.month)
    ⟨fun ⟨month, day⟩ => ⟨month, day⟩, fun ⟨month, day⟩ => ⟨month, day⟩⟩

/-- The day after a date. -/
def next (date : Date) : Date :=
  if date.day < monthLength date.year date.month then { date with day := date.day + 1 }
  else if date.month < 12 then { date with month := date.month + 1, day := 1 }
  else ⟨date.year + 1, 1, 1⟩

end Date

/-! ## Counting days -/

/-- The days from the first of January of the year 0 to that of a year. -/
def yearStart (year : Int) : Int := 365 * year + (year + 3) / 4 - (year + 99) / 100 + (year + 399) / 400

/-- The days of a year before a month. -/
def monthStart (year : Int) (month : Nat) : Nat := ((List.range (month - 1)).map fun m => monthLength year (m + 1)).sum

/-- The days from the first of January 1970 to a date. -/
def Date.number (date : Date) : Int := yearStart date.year + monthStart date.year date.month + date.day - 1 - 719528

theorem leap_iff {year : Int} : leap year = true ↔ year % 4 = 0 ∧ (year % 100 ≠ 0 ∨ year % 400 = 0) := by
  simp [leap]

/-- A year has 365 days, or 366 in a leap year. -/
theorem yearStart_succ (year : Int) : yearStart (year + 1) = yearStart year + if leap year then 366 else 365 := by
  unfold yearStart
  split
  · next is =>
    rw [leap_iff] at is
    omega
  · next is =>
    rw [leap_iff] at is
    omega

theorem monthStart_succ (year : Int) {month : Nat} (one : 1 ≤ month) :
    monthStart year (month + 1) = monthStart year month + monthLength year month := by
  obtain ⟨m, rfl⟩ := Nat.exists_eq_add_of_le' one
  simp [monthStart, List.range_succ]

/-- The months of a year are its days. -/
theorem monthStart_year (year : Int) : monthStart year 12 + monthLength year 12 = if leap year then 366 else 365 := by
  cases is : leap year <;> simp [monthStart, monthLength, List.range_succ, is]

theorem monthLength_pos (year : Int) (month : Nat) : 1 ≤ monthLength year month := by
  unfold monthLength
  split
  · split <;> omega
  all_goals omega

namespace Date

variable {date : Date}

theorem Valid.next (valid : date.Valid) : date.next.Valid := by
  obtain ⟨⟨first, last⟩, one, within⟩ := valid
  unfold Date.next
  split
  · next before => exact ⟨⟨first, last⟩, Nat.le_add_left .., before⟩
  · split
    · next before => exact ⟨⟨Nat.le_add_left .., before⟩, Nat.le_refl _, monthLength_pos ..⟩
    · exact ⟨⟨Nat.le_refl _, Nat.le_add_left 1 11⟩, Nat.le_refl _, monthLength_pos ..⟩

/-- The day after a date has the next number. The cases are those of the calendar: within a
month, from month to month, and from year to year. -/
theorem number_next (valid : date.Valid) : date.next.number = date.number + 1 := by
  obtain ⟨⟨first, last⟩, one, within⟩ := valid
  unfold Date.next
  split
  · simp only [number, Nat.cast_add, Nat.cast_one]
    omega
  · next atEnd =>
    have ends : date.day = monthLength date.year date.month := Nat.le_antisymm within (Nat.le_of_not_lt atEnd)
    split
    · have months := monthStart_succ date.year first
      simp only [number, months, ends]
      omega
    · next lastMonth =>
      have december : date.month = 12 := by omega
      have months := monthStart_year date.year
      have years := yearStart_succ date.year
      have january : monthStart (date.year + 1) 1 = 0 := rfl
      rw [december] at ends
      simp only [number, december, january, ends, years]
      cases is : leap date.year with
      | false =>
        simp only [is, Bool.false_eq_true, if_false] at months ⊢
        omega
      | true =>
        simp only [is, if_true] at months ⊢
        omega

/-- The days are counted from the first of January 1970 on. -/
example : number ⟨1970, 1, 1⟩ = 0 := by decide

end Date

/-! ## Dates and their numbers -/

theorem yearStart_mono {a b : Int} (le : a ≤ b) : yearStart a ≤ yearStart b := by
  unfold yearStart
  omega

theorem monthStart_mono (year : Int) {a b : Nat} (one : 1 ≤ a) (le : a ≤ b) : monthStart year a ≤ monthStart year b := by
  induction le with
  | refl => exact Nat.le_refl _
  | step before inductionHypothesis =>
    rw [Nat.succ_eq_add_one, monthStart_succ year (Nat.le_trans one before)]
    omega

namespace Date

variable {date other : Date}

/-- A date's day is one of its month's. -/
theorem Valid.within_month (valid : date.Valid) :
    monthStart date.year date.month < monthStart date.year date.month + date.day ∧
      monthStart date.year date.month + date.day ≤ monthStart date.year (date.month + 1) := by
  obtain ⟨⟨first, _⟩, one, within⟩ := valid
  rw [monthStart_succ date.year first]
  omega

/-- A date's day is one of its year's. -/
theorem Valid.within_year (valid : date.Valid) :
    yearStart date.year ≤ date.number + 719528 ∧ date.number + 719528 < yearStart (date.year + 1) := by
  obtain ⟨after, before⟩ := valid.within_month
  obtain ⟨⟨first, last⟩, _⟩ := valid
  have latest := monthStart_mono date.year (Nat.le_add_left 1 date.month) (Nat.succ_le_succ last)
  have december := monthStart_succ date.year (Nat.le_add_left 1 11)
  rw [monthStart_year] at december
  change _ ≤ monthStart date.year (12 + 1) at latest
  rw [december] at latest
  rw [yearStart_succ]
  unfold number
  split at latest
  · next is =>
    rw [if_pos is]
    omega
  · next is =>
    rw [if_neg is]
    omega

/-- A date is determined by its number. -/
theorem number_injective (valid : date.Valid) (valid' : other.Valid) (same : date.number = other.number) :
    date = other := by
  obtain ⟨year, month, day⟩ := date
  obtain ⟨year', month', day'⟩ := other
  have years := valid.within_year
  have years' := valid'.within_year
  have months := valid.within_month
  have months' := valid'.within_month
  dsimp only at years years' months months'
  have sameYear : year = year' := by
    rcases Int.lt_trichotomy year year' with before | equal | after
    · have later := yearStart_mono (show year + 1 ≤ year' from before)
      omega
    · exact equal
    · have later := yearStart_mono (show year' + 1 ≤ year from after)
      omega
  subst sameYear
  have sum : monthStart year month + day = monthStart year month' + day' := by
    simp only [number] at same
    omega
  have sameMonth : month = month' := by
    rcases Nat.lt_trichotomy month month' with before | equal | after
    · have later := monthStart_mono year (Nat.le_add_left 1 month) (show month + 1 ≤ month' from before)
      omega
    · exact equal
    · have later := monthStart_mono year (Nat.le_add_left 1 month') (show month' + 1 ≤ month from after)
      omega
  subst sameMonth
  have sameDay : day = day' := by omega
  rw [sameDay]

end Date

end Gregorian
