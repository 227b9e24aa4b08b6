import Mathlib.Tactic.IntervalCases
import MixUpOS.AK.Builtins

/-!
# The calendar

Days are counted from the epoch in closed form.  The inverse divides by an
unsigned number of days, and the formula for the weekday truncates and can
overflow: both are right from March of the year zero on, as long as the sum for
the weekday fits an `int`.
-/

namespace MixUpOS.AK

/-- A remainder is zero whichever way the quotient is rounded. -/
def isLeapYear (year : Int) : Bool := year % 4 == 0 && (year % 100 != 0 || year % 400 == 0)

def daysInMonth (year month : Int) : Int :=
  if month = 2 then if isLeapYear year then 29 else 28
  else if month ∈ [1, 3, 5, 7, 8, 10, 12] then 31 else 30

def dayOfYear (year month day : Int) : Int :=
  if 1 ≤ month ∧ month ≤ 12 then
    [0, 31, 59, 90, 120, 151, 181, 212, 243, 273, 304, 334].getD (month - 1).toNat 0 + day - 1 +
      if isLeapYear year ∧ 3 ≤ month then 1 else 0
  else 0

def floorDivBy (divisor dividend : Int) : Int :=
  let isNegative := if dividend < 0 then 1 else 0
  (dividend + isNegative).tdiv divisor - isNegative

def modZerosInRange (positiveMod start stop : Int) : Int :=
  floorDivBy positiveMod (stop - 1) - floorDivBy positiveMod (start - 1)

def yearsToDaysSinceEpoch (year : Int) : Int :=
  let (start, stop, leapSign) := if year < 1970 then (year, 1970, -1) else (1970, year, 1)
  let extraLeapDays := modZerosInRange 4 start stop - modZerosInRange 100 start stop +
    modZerosInRange 400 start stop
  365 * (year - 1970) + extraLeapDays * leapSign

def daysSinceEpoch (year month day : Int) : Int :=
  yearsToDaysSinceEpoch year + dayOfYear year month day

/-- Conversion to `u8`, `u32` or `u64`. -/
def toUnsigned (width : Nat) (value : Int) : Int := value % 2 ^ width

def yearOfEra (dayOfEra : Int) : Int := toUnsigned 32
  (dayOfEra - dayOfEra / 1460 + dayOfEra / 36524 - dayOfEra / 146096) / 365

def dateOfEra (era dayOfEra : Int) : Int × Int × Int :=
  let year := yearOfEra dayOfEra
  let dayOfYear := toUnsigned 32 (dayOfEra - (365 * year + year / 4 - year / 100))
  let monthOfEra := toUnsigned 32 (5 * dayOfYear + 2) / 153
  let day := dayOfYear - toUnsigned 32 (153 * monthOfEra + 2) / 5 + 1
  let month := if monthOfEra < 10 then monthOfEra + 3 else monthOfEra - 9
  (year + era * 400 + (if month ≤ 2 then 1 else 0), toUnsigned 8 month, toUnsigned 8 day)

/-- A quotient of unsigned numbers, since `era_days` is unsigned. -/
def eraOf (days : Int) : Int := toUnsigned 64 (if 0 ≤ days then days else days - 146096) / 146097

def daysSinceEpochToDate (days : Int) : Option (Int × Int × Int) := do
  verify (days ≤ 2 ^ 63 - 1 - 719468)
  let era := eraOf (days + 719468)
  return dateOfEra era (toUnsigned 32 (days + 719468 - era * 146097))

/-- Arithmetic on `int`, which must not overflow. -/
def int32 (value : Int) : Option Int :=
  if -2 ^ 31 ≤ value ∧ value < 2 ^ 31 then some value else none

def dayOfWeek (year month day : Int) : Option Int := do
  verify (1 ≤ month ∧ month ≤ 12)
  let year ← int32 (if month < 3 then year - 1 else year)
  let sum ← int32 (year + year.tdiv 4)
  let sum ← int32 (sum - year.tdiv 100)
  let sum ← int32 (sum + year.tdiv 400)
  let sum ← int32 (sum + [0, 3, 2, 5, 0, 3, 5, 1, 4, 6, 2, 4].getD (month - 1).toNat 0)
  let sum ← int32 (sum + day)
  return toUnsigned 32 (sum.tmod 7)

/-- A day of the proleptic Gregorian calendar, in a year that an `int` holds. -/
structure Date where
  year : Int
  month : Int
  day : Int
  yearBounds : -2 ^ 31 < year ∧ year < 2 ^ 31
  monthFirst : 1 ≤ month
  monthLast : month ≤ 12
  dayBounds : 1 ≤ day ∧ day ≤ daysInMonth year month

namespace Date

variable (date later : Date)

def days : Int := daysSinceEpoch date.year date.month date.day

/-- The calendar day after a date. -/
def Next : Prop :=
  if date.day < daysInMonth date.year date.month then
    later.year = date.year ∧ later.month = date.month ∧ later.day = date.day + 1
  else if date.month < 12 then
    later.year = date.year ∧ later.month = date.month + 1 ∧ later.day = 1
  else later.year = date.year + 1 ∧ later.month = 1 ∧ later.day = 1

/-- The year that started in March. -/
def marchYear : Int := if date.month < 3 then date.year - 1 else date.year

/-- The days since the first of March. -/
def marchDay : Int := (153 * ((date.month + 9) % 12) + 2) / 5 + date.day - 1

/-- The days since the era began with a March. -/
def dayOfEra : Int := 365 * (date.marchYear % 400) + date.marchYear % 400 / 4 -
  date.marchYear % 400 / 100 + date.marchDay

def leapYears (year : Int) : Int := year / 4 - year / 100 + year / 400

variable {date later}

theorem floorDivBy_eq {divisor dividend : Int} (positive : 0 < divisor) :
    floorDivBy divisor dividend = dividend / divisor := by
  rw [floorDivBy]
  rcases Int.lt_or_le dividend 0 with negative | nonnegative
  · obtain ⟨count, rfl⟩ := Int.eq_negSucc_of_lt_zero negative
    rw [if_pos negative, Int.negSucc_ediv count positive, Int.negSucc_eq, Int.neg_add,
      Int.neg_add_cancel_right, Int.neg_tdiv, Int.tdiv_eq_ediv_of_nonneg count.cast_nonneg,
      Int.neg_add]
    rfl
  · rw [if_neg (Int.not_lt.mpr nonnegative), Int.add_zero, Int.sub_zero,
      Int.tdiv_eq_ediv_of_nonneg nonnegative]

theorem toUnsigned_eq (nonneg : 0 ≤ value) (less : value < 2 ^ width) :
    toUnsigned width value = value :=
  Int.emod_eq_of_lt nonneg less

theorem isLeapYear_iff {year : Int} :
    isLeapYear year ↔ year % 4 = 0 ∧ (year % 100 ≠ 0 ∨ year % 400 = 0) := by
  simp [isLeapYear]

theorem leapYears_pred (year : Int) :
    leapYears year = leapYears (year - 1) + if isLeapYear year then 1 else 0 := by
  simp only [leapYears, isLeapYear_iff]
  omega

theorem yearsToDaysSinceEpoch_eq (year : Int) :
    yearsToDaysSinceEpoch year = 365 * (year - 1970) + leapYears (year - 1) - 477 := by
  unfold yearsToDaysSinceEpoch
  split_ifs <;> simp [modZerosInRange, floorDivBy_eq, leapYears] <;> omega

theorem days_eq (date : Date) :
    date.days + 719468 = 365 * date.marchYear + leapYears date.marchYear + date.marchDay := by
  obtain ⟨year, month, day, _, first, last, dayBounds⟩ := date
  simp only [days, daysSinceEpoch, marchYear, marchDay, dayOfYear, yearsToDaysSinceEpoch_eq]
  have pred := leapYears_pred year
  interval_cases month <;> simp <;> omega

theorem days_next (next : date.Next later) : later.days = date.days + 1 := by
  suffices shifted : later.days + 719468 = date.days + 719468 + 1 by omega
  rw [days_eq, days_eq]
  obtain ⟨year, month, day, _, first, last, dayBounds⟩ := date
  have pred := leapYears_pred year
  simp only [Next, marchYear, marchDay] at next ⊢
  split_ifs at next with sameMonth sameYear <;> obtain ⟨isYear, isMonth, isDay⟩ := next <;>
    rw [isYear, isMonth, isDay] <;> interval_cases month <;> cases leap : isLeapYear year <;>
    simp [daysInMonth, leap] at * <;> omega

theorem marchDay_bounds (date : Date) : 0 ≤ date.marchDay ∧ date.marchDay ≤ 365 ∧
    (date.marchDay = 365 → isLeapYear (date.marchYear + 1)) := by
  obtain ⟨year, month, day, _, first, last, dayBounds⟩ := date
  simp only [marchDay, marchYear, daysInMonth] at dayBounds ⊢
  interval_cases month <;> simp at dayBounds <;> grind

theorem marchYear_bounds (date : Date) : -2 ^ 31 ≤ date.marchYear ∧ date.marchYear < 2 ^ 31 := by
  have bounds := date.yearBounds
  rw [marchYear]
  omega

theorem dayOfEra_bounds (date : Date) : 0 ≤ date.dayOfEra ∧ date.dayOfEra < 146097 := by
  have ⟨nonneg, bound, _⟩ := date.marchDay_bounds
  rw [dayOfEra]
  omega

theorem yearOfEra_dayOfEra (date : Date) : yearOfEra date.dayOfEra = date.marchYear % 400 := by
  have ⟨nonneg, bound, leap⟩ := date.marchDay_bounds
  rw [isLeapYear_iff] at leap
  rw [dayOfEra]
  generalize isYear : date.marchYear % 400 = year
  generalize date.marchDay = day at *
  generalize isDay : 365 * year + year / 4 - year / 100 + day = doe
  have early : day ≤ 364 ∨ day = 365 ∧ (year % 100 ≤ 95 ∧ year % 4 = 3 ∨ year = 399) := by omega
  have century : doe = 146096 ∨ doe / 36524 = year / 100 ∧ doe / 146096 = 0 := by omega
  rw [yearOfEra, toUnsigned_eq (by omega) (by omega)]
  rcases century with rfl | ⟨century, isEra⟩
  · omega
  · omega

theorem dateOfEra_dayOfEra (date : Date) :
    dateOfEra (date.marchYear / 400) date.dayOfEra = (date.year, date.month, date.day) := by
  have ⟨nonneg, bound, _⟩ := date.marchDay_bounds
  simp only [dateOfEra, yearOfEra_dayOfEra]
  rw [dayOfEra]
  obtain ⟨year, month, day, _, first, last, dayBounds⟩ := date
  simp only [marchDay, marchYear, daysInMonth] at dayBounds ⊢
  simp (disch := omega) only [toUnsigned_eq]
  interval_cases month <;> simp at dayBounds ⊢ <;> omega

theorem daysSinceEpochToDate_days (since : 0 ≤ date.marchYear) :
    daysSinceEpochToDate date.days = some (date.year, date.month, date.day) := by
  have ⟨nonneg, less⟩ := date.dayOfEra_bounds
  have ⟨_, yearBound⟩ := date.marchYear_bounds
  have total : date.days + 719468 = date.marchYear / 400 * 146097 + date.dayOfEra := by
    rw [days_eq, leapYears, dayOfEra]
    omega
  have isEra : eraOf (date.days + 719468) = date.marchYear / 400 := by
    rw [eraOf, toUnsigned_eq (by omega) (by omega)]
    omega
  rw [daysSinceEpochToDate, verify_eq_some (decide_eq_true (by omega)), isEra, total]
  dsimp only
  rw [add_sub_cancel_left, toUnsigned_eq nonneg (less.trans (by decide)), dateOfEra_dayOfEra]
  rfl

theorem daysSinceEpochToDate_ne (before : date.marchYear < 0) :
    daysSinceEpochToDate date.days ≠ some (date.year, date.month, date.day) := by
  have ⟨low, _⟩ := date.marchYear_bounds
  have ⟨_, yearBound⟩ := date.yearBounds
  have ⟨nonneg, short, _⟩ := date.marchDay_bounds
  have count := date.days_eq
  rw [leapYears] at count
  have early : -2 ^ 40 ≤ date.days + 719468 ∧ date.days + 719468 < 0 := by omega
  have large : 2 ^ 31 ≤ eraOf (date.days + 719468) := by
    rw [eraOf, toUnsigned]
    omega
  have isYear (doe : Int) : 0 ≤ yearOfEra doe :=
    Int.ediv_nonneg (Int.emod_nonneg _ (by decide)) (by decide)
  rw [daysSinceEpochToDate, verify_eq_some (decide_eq_true (by omega))]
  intro same
  grind [dateOfEra]

theorem int32_eq (bounds : -2 ^ 31 ≤ value ∧ value < 2 ^ 31) : int32 value = some value :=
  if_pos bounds

theorem seek_eq (date : Date) : [0, 3, 2, 5, 0, 3, 5, 1, 4, 6, 2, 4].getD (date.month - 1).toNat 0 =
      (date.marchDay - date.day + 3) % 7 := by
  obtain ⟨year, month, day, _, first, last, dayBounds⟩ := date
  simp only [marchDay]
  interval_cases month <;> simp <;> omega

theorem dayOfWeek_eq (since : 0 ≤ date.marchYear) : dayOfWeek date.year date.month date.day =
    if date.marchYear + date.marchYear / 4 < 2 ^ 31 then some ((date.days + 4) % 7) else none := by
  have count := date.days_eq
  have ⟨first, _⟩ := date.dayBounds
  have last : date.day ≤ 366 := by
    have ⟨_, bound, _⟩ := date.marchDay_bounds
    rw [marchDay] at bound
    omega
  rw [leapYears] at count
  rw [dayOfWeek, verify_eq_some (decide_eq_true ⟨date.monthFirst, date.monthLast⟩), some_bind,
    ← marchYear, int32_eq date.marchYear_bounds, some_bind, Int.tdiv_eq_ediv_of_nonneg since,
    Int.tdiv_eq_ediv_of_nonneg since, Int.tdiv_eq_ediv_of_nonneg since, seek_eq]
  split_ifs with fits
  · rw [int32_eq (by omega), some_bind, int32_eq (by omega), some_bind, int32_eq (by omega),
      some_bind, int32_eq (by omega), some_bind, int32_eq (by omega), some_bind,
      Int.tmod_eq_emod_of_nonneg (by omega), toUnsigned]
    apply congrArg some
    omega
  · rw [int32, if_neg (absurd ·.2 fits)]
    rfl

/-- Days are always counted right.  What depends on the date is whether it can be
found again from the number of days, together with its weekday. -/
theorem calendar_iff (date : Date) : ((∀ later, date.Next later → later.days = date.days + 1) ∧
      daysSinceEpochToDate date.days = some (date.year, date.month, date.day) ∧
      dayOfWeek date.year date.month date.day = some ((date.days + 4) % 7)) ↔
    0 ≤ date.marchYear ∧ date.marchYear + date.marchYear / 4 < 2 ^ 31 := by
  constructor
  · rintro ⟨_, inverse, weekday⟩
    rcases Int.lt_or_le date.marchYear 0 with before | since
    · cases daysSinceEpochToDate_ne before inverse
    · rw [dayOfWeek_eq since] at weekday
      exact ⟨since, by grind⟩
  · rintro ⟨since, fits⟩
    refine ⟨fun later => days_next, daysSinceEpochToDate_days since, ?_⟩
    rw [dayOfWeek_eq since, if_pos fits]

/-- A leap day, which was a Thursday. -/
theorem calendar_iff_leap_day :
    daysSinceEpochToDate (daysSinceEpoch 2024 2 29) = some (2024, 2, 29) ∧
      dayOfWeek 2024 2 29 = some 4 :=
  ((calendar_iff ⟨2024, 2, 29, by decide, by decide, by decide, by decide⟩).mpr (by decide)).2

theorem weekday_before_zero : dayOfWeek (-1) 1 1 = some (2 ^ 32 - 1) ∧
    daysSinceEpochToDate (daysSinceEpoch (-1) 1 1) ≠ some (-1, 1, 1) := by
  decide +kernel

end Date

end MixUpOS.AK
