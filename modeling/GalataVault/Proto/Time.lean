import Mathlib.Tactic.NormNum
import GalataVault.Library.Gregorian
import GalataVault.Library.MachineInt

/-!
# Calendar fields from Unix seconds

The year is counted from March, so that a leap day is the last day of its year, and in eras
of 400 years, which all have the same days. Within an era the year is found by taking the
leap days before it away and dividing by 365; that this is the year is shown for the first
and the last day of each year of one era, and for the days between by monotonicity.

Every operation is one of a machine integer, and none leaves its type.
-/

namespace GalataVault.Proto

open MachineInt Gregorian

/-! ## The code -/

/-- `(year, month, day, hour, minute, second)` in UTC. -/
structure Utc where
  year : Int
  month : Int
  day : Int
  hour : Int
  minute : Int
  second : Int
deriving DecidableEq

/-- `div_euclid` and `rem_euclid` are `/` and `%` here, for the divisors are positive; the
`i64` operators are `tdiv` and `tmod`. None of these leaves the type for such a divisor. -/
def utc (build : Build) (ts : Int) : Calc Utc := do
  let days := ts / 86400
  let secs := ts % 86400
  let z ← Calc.result build i64 (days + 719468)
  let era := z / 146097
  let doe := z % 146097
  let fours ← Calc.result build i64 (doe - doe.tdiv 1460)
  let hundreds ← Calc.result build i64 (fours + doe.tdiv 36524)
  let counted ← Calc.result build i64 (hundreds - doe.tdiv 146096)
  let yoe := counted.tdiv 365
  let plain ← Calc.result build i64 (365 * yoe)
  let leaps ← Calc.result build i64 (plain + yoe.tdiv 4)
  let before ← Calc.result build i64 (leaps - yoe.tdiv 100)
  let doy ← Calc.result build i64 (doe - before)
  let five ← Calc.result build i64 (5 * doy)
  let five ← Calc.result build i64 (five + 2)
  let mp := five.tdiv 153
  let months ← Calc.result build i64 (153 * mp)
  let months ← Calc.result build i64 (months + 2)
  let day ← Calc.result build i64 (doy - months.tdiv 5)
  let d ← Calc.result build i64 (day + 1)
  let m ← Calc.result build i64 (if mp < 10 then mp + 3 else mp - 9)
  let eras ← Calc.result build i64 (era * 400)
  let year ← Calc.result build i64 (yoe + eras)
  let y ← Calc.result build i64 (year + if m ≤ 2 then 1 else 0)
  pure
    { year := y
      month := u32.wrap m
      day := u32.wrap d
      hour := u32.wrap (secs.tdiv 3600)
      minute := u32.wrap ((secs.tmod 3600).tdiv 60)
      second := u32.wrap (secs.tmod 60) }

/-! ## The years of an era -/

/-- The days of an era before a year. -/
def eraStart (yoe : Int) : Int := 365 * yoe + yoe / 4 - yoe / 100

/-- The year of a day of an era. -/
def eraYear (doe : Int) : Int := (doe - doe / 1460 + doe / 36524 - doe / 146096) / 365

/-- The first and the last day of each year. -/
theorem eraYear_ends : ∀ n < 400, eraYear (eraStart (n : Nat)) = (n : Nat) ∧
    (n ≠ 0 → eraYear (eraStart (n : Nat) - 1) = (n : Nat) - 1) := by decide +kernel

theorem eraYear_mono {a b : Int} (le : a ≤ b) : eraYear a ≤ eraYear b := by
  have fours : a - a / 1460 ≤ b - b / 1460 := by omega
  have fourths (n : Int) : n / 146096 = n / 36524 / 4 := by omega
  have hundreds : a / 36524 - a / 36524 / 4 ≤ b / 36524 - b / 36524 / 4 := by
    have quotients : a / 36524 ≤ b / 36524 := Int.ediv_le_ediv (by decide) le
    omega
  unfold eraYear
  apply Int.ediv_le_ediv (by decide)
  rw [fourths a, fourths b]
  omega

/-- A day of an era is one of its year's. -/
theorem eraYear_spec {doe : Int} (low : 0 ≤ doe) (high : doe < 146097) :
    0 ≤ eraYear doe ∧ eraYear doe < 400 ∧ eraStart (eraYear doe) ≤ doe ∧
      (eraYear doe < 399 → doe < eraStart (eraYear doe + 1)) := by
  have bounds : 0 ≤ eraYear doe ∧ eraYear doe < 400 := by
    unfold eraYear
    omega
  obtain ⟨n, year⟩ := Int.eq_ofNat_of_zero_le bounds.1
  refine ⟨bounds.1, bounds.2, ?_, ?_⟩
  · by_contra before
    by_cases first : n = 0
    · rw [year, first] at before
      exact before low
    · have last := (eraYear_ends n (by omega)).2 first
      have mono := eraYear_mono (show doe ≤ eraStart n - 1 by rw [year] at before; omega)
      omega
  · intro notLast
    by_contra after
    have next := (eraYear_ends (n + 1) (by omega)).1
    have mono := eraYear_mono (show eraStart ((n + 1 : Nat) : Int) ≤ doe by
      rw [year] at after
      push_cast
      omega)
    omega

/-! ## Years from March on -/

/-- The days from the first of March of the year 0 to that of a year. -/
def marchStart (year : Int) : Int := 365 * year + year / 4 - year / 100 + year / 400

theorem monthStart_third (year : Int) : monthStart year 3 = if leap year then 60 else 59 := by
  cases is : leap year <;> simp [monthStart, monthLength, List.range_succ, is]

/-- From March on a month begins as many days later in every year. -/
theorem monthStart_from_third (year : Int) {month : Nat} (third : 3 ≤ month) (last : month ≤ 12) :
    monthStart year month = monthStart year 3 + (153 * (month - 3) + 2) / 5 := by
  cases is : leap year <;> interval_cases month <;> simp [monthStart, monthLength, List.range_succ, is]

/-- The first of March is the sixtieth day of a year, or the day after in a leap year. -/
theorem yearStart_third (year : Int) : yearStart year + (if leap year then 60 else 59 : Nat) = marchStart year + 60 := by
  unfold yearStart marchStart
  split
  · next is =>
    rw [leap_iff] at is
    omega
  · next is =>
    rw [leap_iff] at is
    omega

/-- The year after begins 306 days after the first of March. -/
theorem yearStart_after (year : Int) : yearStart (year + 1) = marchStart year + 366 := by
  unfold yearStart marchStart
  omega

/-! ## The date of a day -/

/-- The year from March on of a day that is counted from the first of March of the year 0. -/
def marchYear (z : Int) : Int := eraYear (z % 146097) + z / 146097 * 400

/-- The days of that year before it. -/
def dayOfYear (z : Int) : Int := z % 146097 - eraStart (eraYear (z % 146097))

/-- The months of that year before it. -/
def monthsBefore (z : Int) : Int := (5 * dayOfYear z + 2) / 153

theorem dayOfYear_spec (z : Int) :
    z = marchStart (marchYear z) + dayOfYear z ∧ 0 ≤ dayOfYear z ∧ dayOfYear z ≤ 365 ∧
      (dayOfYear z = 365 → leap (marchYear z + 1) = true) := by
  have low : 0 ≤ z % 146097 := Int.emod_nonneg z (by decide)
  have high : z % 146097 < 146097 := Int.emod_lt_of_pos z (by decide)
  obtain ⟨first, last, after, before⟩ := eraYear_spec low high
  have split := Int.emod_add_mul_ediv z 146097
  rw [leap_iff]
  unfold dayOfYear marchYear marchStart
  generalize eraYear (z % 146097) = yoe at *
  generalize z % 146097 = doe at *
  unfold eraStart at *
  refine ⟨by omega, by omega, by omega, fun leapDay => ?_⟩
  by_cases lastYear : yoe = 399
  · omega
  · -- The year has a day more than 365, which only a leap day behind it can be.
    have longer : yoe / 4 - yoe / 100 < (yoe + 1) / 4 - (yoe + 1) / 100 := by
      have room := before (by omega)
      omega
    have fourth : (yoe + 1) / 4 = yoe / 4 + 1 := by omega
    have century : (yoe + 1) / 100 = yoe / 100 := by omega
    have ends : (yoe + 1) % 4 = 0 := by omega
    have apart : (yoe + 1) % 100 ≠ 0 := by omega
    exact ⟨by omega, .inl (by omega)⟩

/-- A month from March on is as long as the next begins after it. -/
theorem monthLength_from_third (year : Int) {n : Nat} (last : n ≤ 9) :
    (monthLength year (n + 3) : Int) = (153 * (n + 1 : Int) + 2) / 5 - (153 * n + 2) / 5 := by
  interval_cases n <;> simp [monthLength]

/-- The date of a day that is counted from the first of March. -/
structure DateOf (year : Int) (month : Nat) (day : Int) (z : Int) : Prop where
  positive : 0 ≤ day
  valid : (Date.mk year month day.toNat).Valid
  number : (Date.mk year month day.toNat).number = z - 719468

/-- From March to December. -/
theorem dateOf_early (year : Int) {doy : Int} {n : Nat} (months : (5 * doy + 2) / 153 = n) (last : n ≤ 9) :
    DateOf year (n + 3) (doy - (153 * n + 2) / 5 + 1) (marchStart year + doy) := by
  have positive : 1 ≤ doy - (153 * n + 2) / 5 + 1 := by omega
  have length := monthLength_from_third year last
  have start := monthStart_from_third year (Nat.le_add_left 3 n) (show n + 3 ≤ 12 by omega)
  rw [monthStart_third, Nat.add_sub_cancel] at start
  have spring := yearStart_third year
  have day : (((doy - (153 * n + 2) / 5 + 1).toNat : Nat) : Int) = doy - (153 * n + 2) / 5 + 1 :=
    Int.toNat_of_nonneg (by omega)
  refine ⟨by omega, ⟨⟨Nat.le_add_left 1 (n + 2), show n + 3 ≤ 12 by omega⟩, ?_, ?_⟩, ?_⟩
  · dsimp only
    omega
  · dsimp only
    omega
  · simp only [Date.number, start, day]
    push_cast at spring ⊢
    omega

/-- January. -/
theorem dateOf_january (year : Int) {doy : Int} (months : (5 * doy + 2) / 153 = 10) :
    DateOf (year + 1) 1 (doy - 306 + 1) (marchStart year + doy) := by
  have day : (((doy - 306 + 1).toNat : Nat) : Int) = doy - 306 + 1 := Int.toNat_of_nonneg (by omega)
  have long : monthLength (year + 1) 1 = 31 := rfl
  have start : monthStart (year + 1) 1 = 0 := rfl
  refine ⟨by omega, ⟨⟨Nat.le_refl 1, Nat.le_add_left 1 11⟩, ?_, ?_⟩, ?_⟩
  · dsimp only
    omega
  · dsimp only
    omega
  · simp only [Date.number, start, day, yearStart_after]
    omega

/-- February, whose last day may be the leap day. -/
theorem dateOf_february (year : Int) {doy : Int} (months : (5 * doy + 2) / 153 = 11) (high : doy ≤ 365)
    (leapDay : doy = 365 → leap (year + 1) = true) : DateOf (year + 1) 2 (doy - 337 + 1) (marchStart year + doy) := by
  have day : (((doy - 337 + 1).toNat : Nat) : Int) = doy - 337 + 1 := Int.toNat_of_nonneg (by omega)
  have start : monthStart (year + 1) 2 = 31 := rfl
  have long : doy - 337 + 1 ≤ monthLength (year + 1) 2 := by
    cases is : leap (year + 1) with
    | true =>
      simp only [monthLength, is, if_true]
      omega
    | false =>
      have notLast : doy ≠ 365 := fun last => by
        rw [leapDay last] at is
        cases is
      simp only [monthLength, is, Bool.false_eq_true, if_false]
      omega
  refine ⟨by omega, ⟨⟨Nat.le_add_left 1 1, Nat.le_add_left 2 10⟩, ?_, ?_⟩, ?_⟩
  · dsimp only
    omega
  · dsimp only
    omega
  · simp only [Date.number, start, day, yearStart_after]
    omega

/-! ## The machine integers -/

theorem result_i64 (build : Build) {n : Int} (low : -2 ^ 63 ≤ n) (high : n < 2 ^ 63) : Calc.result build i64 n = pure n :=
  Calc.result_of_holds ⟨low, high⟩

theorem wrap_u32 {n : Int} (low : 0 ≤ n) (high : n < 2 ^ 32) : u32.wrap n = n := IntType.wrap_of_holds ⟨low, high⟩

/-- The months that `utc` comes to, from those before it since March. -/
def monthOf (mp : Int) : Int := if mp < 10 then mp + 3 else mp - 9

/-- No operation leaves its type. -/
theorem utc_eq (build : Build) {ts : Int} (typed : i64.Holds ts) :
    utc build ts =
      let z := ts / 86400 + 719468
      let mp := monthsBefore z
      pure
        { year := marchYear z + if monthOf mp ≤ 2 then 1 else 0
          month := monthOf mp
          day := dayOfYear z - (153 * mp + 2) / 5 + 1
          hour := ts % 86400 / 3600
          minute := ts % 86400 % 3600 / 60
          second := ts % 86400 % 60 } := by
  obtain ⟨least, greatest⟩ : -2 ^ 63 ≤ ts ∧ ts < 2 ^ 63 := typed
  have zLow : -2 ^ 62 ≤ ts / 86400 + 719468 := by omega
  have zHigh : ts / 86400 + 719468 ≤ 2 ^ 62 := by omega
  have secsLow : 0 ≤ ts % 86400 := by omega
  have secsHigh : ts % 86400 < 86400 := by omega
  unfold utc monthsBefore dayOfYear marchYear
  dsimp only
  generalize ts / 86400 + 719468 = z at *
  rw [result_i64 build (by omega) (by omega), Calc.bind_of_pure]
  have doeLow : 0 ≤ z % 146097 := Int.emod_nonneg z (by decide)
  have doeHigh : z % 146097 < 146097 := Int.emod_lt_of_pos z (by decide)
  obtain ⟨first, last, _⟩ := eraYear_spec doeLow doeHigh
  obtain ⟨_, doyLow, doyHigh, _⟩ := dayOfYear_spec z
  unfold dayOfYear at doyLow doyHigh
  have eraLow : -2 ^ 50 ≤ z / 146097 := by omega
  have eraHigh : z / 146097 ≤ 2 ^ 50 := by omega
  generalize z / 146097 = era at *
  generalize z % 146097 = doe at *
  have counted : 0 ≤ doe - doe / 1460 + doe / 36524 - doe / 146096 := by omega
  simp (disch := omega) only [result_i64, Calc.bind_of_pure, Int.tdiv_eq_ediv_of_nonneg, Int.tmod_eq_emod_of_nonneg]
  rw [show (doe - doe / 1460 + doe / 36524 - doe / 146096) / 365 = eraYear doe from rfl]
  generalize eraYear doe = yoe at *
  rw [show doe - (365 * yoe + yoe / 4 - yoe / 100) = doe - eraStart yoe from rfl]
  generalize doe - eraStart yoe = doy at *
  simp (disch := omega) only [Int.tdiv_eq_ediv_of_nonneg]
  have mpLow : 0 ≤ (5 * doy + 2) / 153 := by omega
  have mpHigh : (5 * doy + 2) / 153 ≤ 11 := by omega
  generalize months : (5 * doy + 2) / 153 = mp at *
  rw [show (if mp < 10 then mp + 3 else mp - 9) = monthOf mp from rfl]
  have month : 1 ≤ monthOf mp ∧ monthOf mp ≤ 12 := by
    unfold monthOf
    split <;> omega
  generalize monthOf mp = m at *
  simp (disch := omega) only [result_i64, Calc.bind_of_pure, Int.tdiv_eq_ediv_of_nonneg]
  simp (disch := omega) only [wrap_u32]

/-- The fields of the months before, in the three parts of the year from March. -/
theorem dateOf_utc (z : Int) :
    DateOf (marchYear z + if monthOf (monthsBefore z) ≤ 2 then 1 else 0) (monthOf (monthsBefore z)).toNat
      (dayOfYear z - (153 * monthsBefore z + 2) / 5 + 1) z := by
  obtain ⟨split, low, high, leapDay⟩ := dayOfYear_spec z
  have months : (5 * dayOfYear z + 2) / 153 = monthsBefore z := rfl
  have least : 0 ≤ monthsBefore z := by omega
  have most : monthsBefore z ≤ 11 := by omega
  generalize monthsBefore z = mp at *
  obtain ⟨n, rfl⟩ := Int.eq_ofNat_of_zero_le least
  have parts : n ≤ 9 ∨ n = 10 ∨ n = 11 := by omega
  rcases parts with early | rfl | rfl
  · have month : monthOf n = (n + 3 : Nat) := by
      unfold monthOf
      rw [if_pos (by omega)]
      push_cast
      rfl
    have date := dateOf_early (marchYear z) months early
    rw [← split] at date
    rw [month, Int.toNat_natCast, if_neg (by omega), Int.add_zero]
    exact date
  · have date := dateOf_january (marchYear z) months
    rw [← split] at date
    exact date
  · have date := dateOf_february (marchYear z) months high leapDay
    rw [← split] at date
    exact date

/-- What `utc` comes to: the date with the day's number, and the parts of the day. -/
theorem utc_fields (build : Build) {ts : Int} (typed : i64.Holds ts) :
    ∃ date : Date, utc build ts =
        pure ⟨date.year, date.month, date.day, ts % 86400 / 3600, ts % 86400 % 3600 / 60, ts % 86400 % 60⟩ ∧
      date.Valid ∧ date.number = ts / 86400 := by
  have fields := utc_eq build typed
  obtain ⟨positive, valid, number⟩ := dateOf_utc (ts / 86400 + 719468)
  have most := valid.month.1
  dsimp only at fields most
  have monthPositive : 0 ≤ monthOf (monthsBefore (ts / 86400 + 719468)) := by omega
  refine ⟨_, ?_, valid, by rw [number]; omega⟩
  rw [fields, Int.toNat_of_nonneg monthPositive, Int.toNat_of_nonneg positive]

/-- For every Unix time of 64 bits and in every build, `utc` computes without leaving a
machine integer, and returns the date and time of that second: the one valid date with the
day's number, and the hour, minute and second of the day. -/
theorem utc_exact (build : Build) {ts : Int} (typed : i64.Holds ts) :
    ∃ (year : Int) (month day hour minute second : Nat),
      utc build ts = pure ⟨year, month, day, hour, minute, second⟩ ∧ (Date.mk year month day).Valid ∧
        hour < 24 ∧ minute < 60 ∧ second < 60 ∧
          (Date.mk year month day).number * 86400 + hour * 3600 + minute * 60 + second = ts ∧
            ∀ date : Date, date.Valid → date.number = ts / 86400 → date = ⟨year, month, day⟩ := by
  obtain ⟨date, fields, valid, number⟩ := utc_fields build typed
  obtain ⟨hour, hour_eq⟩ := Int.eq_ofNat_of_zero_le (show 0 ≤ ts % 86400 / 3600 by omega)
  obtain ⟨minute, minute_eq⟩ := Int.eq_ofNat_of_zero_le (show 0 ≤ ts % 86400 % 3600 / 60 by omega)
  obtain ⟨second, second_eq⟩ := Int.eq_ofNat_of_zero_le (show 0 ≤ ts % 86400 % 60 by omega)
  rw [hour_eq, minute_eq, second_eq] at fields
  refine ⟨date.year, date.month, date.day, hour, minute, second, fields, valid, by omega, by omega, by omega, ?_, ?_⟩
  · change date.number * 86400 + hour * 3600 + minute * 60 + second = ts
    omega
  · exact fun other otherValid same => Date.number_injective otherValid valid (same.trans number.symm)

/-- The second before 1970. -/
theorem utc_exact_before_epoch :
    utc .checked (-1) = pure ⟨1969, 12, 31, 23, 59, 59⟩ ∧
      ∃ (year : Int) (month day hour minute second : Nat), utc .checked (-1) = pure ⟨year, month, day, hour, minute, second⟩ ∧
        (Date.mk year month day).Valid ∧
          (Date.mk year month day).number * 86400 + hour * 3600 + minute * 60 + second = -1 := by
  obtain ⟨year, month, day, hour, minute, second, fields, valid, _, _, _, back, _⟩ := @utc_exact .checked (-1) (by decide)
  exact ⟨by decide +kernel, year, month, day, hour, minute, second, fields, valid, back⟩

/-- From one day to the next the date goes on by the rules of the calendar. -/
theorem utc_next_day (build : Build) {ts : Int} (typed : i64.Holds ts) (room : i64.Holds (ts + 86400)) :
    ∃ date : Date, date.Valid ∧ ∃ hour minute second,
      utc build ts = pure ⟨date.year, date.month, date.day, hour, minute, second⟩ ∧
        utc build (ts + 86400) = pure ⟨date.next.year, date.next.month, date.next.day, hour, minute, second⟩ := by
  obtain ⟨today, fields, valid, number⟩ := utc_fields build typed
  obtain ⟨tomorrow, fields', valid', number'⟩ := utc_fields build room
  have follows : tomorrow = today.next := by
    apply Date.number_injective valid' valid.next
    rw [number', Date.number_next valid, number]
    omega
  subst follows
  refine ⟨today, valid, _, _, _, fields, ?_⟩
  rw [fields', Int.add_emod_right]

end GalataVault.Proto
