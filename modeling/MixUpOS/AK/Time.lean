import Mathlib.Data.Int.Basic
import MixUpOS.AK.Builtins

/-!
# Saturating durations

A duration is a number of seconds and the nanoseconds after it, also before
zero.  The operations are exact on the number of nanoseconds, up to the ends of
the range.
-/

namespace MixUpOS.AK

open Option

/-- Arithmetic on `i64`, which must not overflow. -/
def int64 (value : Int) : Option Int :=
  if -2 ^ 63 ≤ value ∧ value < 2 ^ 63 then some value else none

/-- `Checked<i64>`: there is no value after an overflow. -/
abbrev Checked := Option Int

namespace Checked

def add (checked : Checked) (other : Int) : Checked := checked.bind (int64 <| · + other)

def sub (checked : Checked) (other : Int) : Checked := checked.bind (int64 <| · - other)

def mul (checked : Checked) (other : Int) : Checked := checked.bind (int64 <| · * other)

def saturatingAdd (value other : Int) : Int :=
  (add (some value) other).getD (if 0 ≤ other then 2 ^ 63 - 1 else -2 ^ 63)

end Checked

structure Duration where
  seconds : Int
  nanoseconds : Nat
deriving DecidableEq

namespace Duration

variable (time : Duration)

def min : Duration := ⟨-2 ^ 63, 0⟩

def max : Duration := ⟨2 ^ 63 - 1, 999999999⟩

/-- What the types of the members and the assertions allow. -/
def Valid : Prop :=
  (-2 ^ 63 ≤ time.seconds ∧ time.seconds < 2 ^ 63) ∧ time.nanoseconds < 10 ^ 9

/-- The number of nanoseconds. -/
def exact : Int := time.seconds * 10 ^ 9 + time.nanoseconds

def verifyNormal : Option Unit := verify (decide (time.nanoseconds < 10 ^ 9))

/-- The end of the `operator+`, after the carry. -/
def addSeconds (thisSecs otherSecs : Int) (newNsecs : Nat) : Duration :=
  match Checked.add (some thisSecs) otherSecs with
  | none => if 0 < otherSecs then max else min
  | some newSecs => ⟨newSecs, newNsecs⟩

/-- The `operator+`. -/
def add (time other : Duration) : Option Duration := do
  time.verifyNormal
  other.verifyNormal
  let extraSecs := (time.nanoseconds + other.nanoseconds) / 10 ^ 9
  let newNsecs := (time.nanoseconds + other.nanoseconds) % 10 ^ 9
  if extraSecs = 0 then return addSeconds time.seconds other.seconds newNsecs
  else
    verify (decide (extraSecs = 1))
    if time.seconds ≠ 2 ^ 63 - 1 then
      return addSeconds (← int64 (time.seconds + 1)) other.seconds newNsecs
    else if other.seconds ≠ 2 ^ 63 - 1 then
      return addSeconds time.seconds (← int64 (other.seconds + 1)) newNsecs
    else return max

/-- The `operator-`. -/
def sub (time other : Duration) : Option Duration := do
  time.verifyNormal
  other.verifyNormal
  if other.nanoseconds ≠ 0 then
    time.add ⟨-other.seconds - 1, 10 ^ 9 - other.nanoseconds⟩
  else if other.seconds ≠ -2 ^ 63 then time.add ⟨← int64 (-other.seconds), 0⟩
  else if 0 ≤ time.seconds then return max
  else return ⟨← int64 ((← int64 (time.seconds + 2 ^ 62)) + 2 ^ 62), time.nanoseconds⟩

/-- The `operator<=>`. -/
def compare (time other : Duration) : Int :=
  if other.seconds < time.seconds then 1 else if time.seconds < other.seconds then -1
  else if other.nanoseconds < time.nanoseconds then 1
  else if time.nanoseconds < other.nanoseconds then -1 else 0

def toTruncatedSeconds : Option Int := do
  time.verifyNormal
  if time.seconds < 0 ∧ time.nanoseconds ≠ 0 then int64 (time.seconds + 1)
  else return time.seconds

def toSeconds : Option Int := do
  time.verifyNormal
  if 0 ≤ time.seconds ∧ time.nanoseconds ≠ 0 then
    return Checked.saturatingAdd time.seconds 1
  else return time.seconds

/-- The other conversions.  One is added to the units that the nanoseconds fill
where that rounds as it should, and a negative number of seconds is counted from
the next one until then. -/
def toUnits (unitsPerSecond : Int) (units : Nat) (roundUp : Bool) : Option Int := do
  time.verifyNormal
  let seconds ← (if time.seconds < 0 then int64 (time.seconds + 1)
    else some time.seconds)
  let count := (Checked.mul (some seconds) unitsPerSecond).add units
  let count := if roundUp then count.add 1 else count
  let count := if time.seconds < 0 then count.sub unitsPerSecond else count
  return count.getD (if time.seconds < 0 then -2 ^ 63 else 2 ^ 63 - 1)

def toTruncatedMilliseconds : Option Int :=
  time.toUnits (10 ^ 3) (time.nanoseconds / 10 ^ 6)
    (decide (time.seconds < 0 ∧ time.nanoseconds % 10 ^ 6 ≠ 0))

def toTruncatedMicroseconds : Option Int :=
  time.toUnits (10 ^ 6) (time.nanoseconds / 10 ^ 3)
    (decide (time.seconds < 0 ∧ time.nanoseconds % 10 ^ 3 ≠ 0))

def toMilliseconds : Option Int := time.toUnits (10 ^ 3) (time.nanoseconds / 10 ^ 6)
    (decide (0 ≤ time.seconds ∧ time.nanoseconds % 10 ^ 6 ≠ 0))

def toMicroseconds : Option Int := time.toUnits (10 ^ 6) (time.nanoseconds / 10 ^ 3)
    (decide (0 ≤ time.seconds ∧ time.nanoseconds % 10 ^ 3 ≠ 0))

def toNanoseconds : Option Int := time.toUnits (10 ^ 9) time.nanoseconds false

/-- The nearest number in a range. -/
def clamp (low high value : Int) : Int := Max.max low (Min.min value high)

/-- The nearest number that an `i64` holds. -/
def Rounds (answer : Option Int) (value : Int) : Prop :=
  answer = some (clamp (-2 ^ 63) (2 ^ 63 - 1) value)

/-- A duration with the nearest number of nanoseconds that there is one for. -/
def Nearest (answer : Option Duration) (value : Int) : Prop :=
  ∃ time, answer = some time ∧ time.Valid ∧
    time.exact = clamp min.exact max.exact value

/-- Division that rounds toward zero. -/
def divToward (value unit : Int) : Int := if 0 ≤ value then value / unit else -(-value / unit)

/-- Division that rounds away from zero. -/
def divAway (value unit : Int) : Int := if 0 ≤ value then -(-value / unit) else value / unit

section

variable (inside : -2 ^ 63 ≤ value ∧ value < 2 ^ 63)

include inside

theorem int64_eq : int64 value = some value := if_pos inside

theorem rounds_int64 : Rounds (int64 value) value := by
  rw [int64_eq inside, Rounds, clamp]
  congr 1
  omega

end

theorem int64_bind_add (low : 0 ≤ value) (pos : 0 ≤ other) :
    (int64 value).bind (int64 <| · + other) = int64 (value + other) := by
  by_cases high : value < 2 ^ 63
  · rw [int64_eq ⟨by omega, high⟩]
    rfl
  · rw [int64, if_neg (by omega), int64, if_neg (by omega)]
    rfl

theorem int64_getD (same : value = other)
    (isLimit : value < -2 ^ 63 ∧ limit = -2 ^ 63 ∨ 2 ^ 63 ≤ value ∧ limit = 2 ^ 63 - 1 ∨
      -2 ^ 63 ≤ value ∧ value < 2 ^ 63) : Rounds (some ((int64 value).getD limit)) other := by
  rw [Rounds, int64, clamp]
  congr 1
  split_ifs <;> simp only [getD_some, getD_none] <;> omega

theorem addSeconds_nearest {value : Int} {nsecs : Nat}
    (this : -2 ^ 63 ≤ thisSecs ∧ thisSecs < 2 ^ 63)
    (other : -2 ^ 63 ≤ otherSecs ∧ otherSecs < 2 ^ 63) (normal : nsecs < 10 ^ 9)
    (isValue : value = (thisSecs + otherSecs) * 10 ^ 9 + nsecs) :
    Nearest (some (addSeconds thisSecs otherSecs nsecs)) value := by
  refine ⟨_, rfl, ?_⟩
  rw [addSeconds, Checked.add, bind_some, int64]
  by_cases inside : -2 ^ 63 ≤ thisSecs + otherSecs ∧ thisSecs + otherSecs < 2 ^ 63
  · rw [if_pos inside]
    simp only [Valid, exact, clamp, min, max]
    omega
  · simp only [Valid, exact, clamp, min, max]
    split_ifs <;> dsimp only <;> omega

section

variable {time other : Duration} (valid : time.Valid) (otherValid : other.Valid)

include valid

theorem verifyNormal_eq : time.verifyNormal = some () := verify_eq_some (decide_eq_true valid.2)

theorem toUnits_rounds {units : Nat} {roundUp : Bool} (few : unitsPerSecond ≤ 10 ^ 9)
    (less : (units : Int) + (if roundUp then 1 else 0) ≤ unitsPerSecond)
    (isQuotient : quotient = time.seconds * unitsPerSecond + units + if roundUp then 1 else 0) :
    Rounds (time.toUnits unitsPerSecond units roundUp) quotient := by
  obtain ⟨inside, normal⟩ := id valid
  have pos : 0 ≤ unitsPerSecond := by split at less <;> omega
  simp only [toUnits, verifyNormal_eq valid, bind_eq_bind, bind_some, Checked.mul,
    Checked.add, Checked.sub]
  by_cases negative : time.seconds < 0
  · have small := Int.mul_nonpos_of_nonpos_of_nonneg (show time.seconds + 1 ≤ 0 by omega)
      pos
    rw [if_pos negative, int64_eq (by omega), bind_some]
    simp only [negative, if_true]
    rw [Int.add_mul, Int.one_mul] at small ⊢
    generalize time.seconds * unitsPerSecond = product at small isQuotient
    by_cases low : -2 ^ 63 ≤ product + unitsPerSecond
    · rw [int64_eq (by omega), bind_some, int64_eq (by omega)]
      cases roundUp with
      | false => exact int64_getD (by simp [isQuotient]; omega) (by omega)
      | true =>
        rw [bind_some, int64_eq (by omega)]
        exact int64_getD (by simp [isQuotient]; omega) (by omega)
    · have overflow : int64 (product + unitsPerSecond) = none := if_neg (by omega)
      rw [overflow, bind_none, bind_none, ite_self, bind_none, Rounds, clamp]
      congr 1
      rw [getD_none]
      omega
  · have large := Int.mul_nonneg (show 0 ≤ time.seconds by omega) pos
    simp only [negative, if_false, bind_some, int64_bind_add large (Int.natCast_nonneg _)]
    cases roundUp with
    | false => exact int64_getD (by simp [isQuotient]) (by omega)
    | true =>
      rw [int64_bind_add (by omega) (by omega)]
      exact int64_getD (by simp [isQuotient]) (by omega)

include otherValid

theorem add_nearest : Nearest (time.add other) (time.exact + other.exact) := by
  obtain ⟨inside, normal⟩ := id valid
  obtain ⟨otherInside, otherNormal⟩ := id otherValid
  simp only [add, verifyNormal_eq valid, verifyNormal_eq otherValid, some_bind, exact]
  have rest := Nat.mod_lt (time.nanoseconds + other.nanoseconds) (show 0 < 10 ^ 9 by decide)
  split_ifs with none thisLess otherLess
  · exact addSeconds_nearest inside otherInside rest (by omega)
  · rw [int64_eq (by omega), verify_eq_some (decide_eq_true (by omega))]
    exact addSeconds_nearest (by omega) otherInside rest (by omega)
  · rw [int64_eq (by omega), verify_eq_some (decide_eq_true (by omega))]
    exact addSeconds_nearest inside (by omega) rest (by omega)
  · rw [verify_eq_some (decide_eq_true (by omega))]
    refine ⟨max, rfl, by unfold Valid; decide, ?_⟩
    simp only [clamp, exact, max, min]
    omega

theorem sub_nearest : Nearest (time.sub other) (time.exact - other.exact) := by
  obtain ⟨inside, normal⟩ := id valid
  obtain ⟨otherInside, otherNormal⟩ := id otherValid
  have negated : ∀ negative : Duration, negative.Valid ∧ other.exact = -negative.exact →
      Nearest (time.add negative) (time.exact - other.exact) := by
    rintro negative ⟨negativeValid, same⟩
    rw [same, Int.sub_neg]
    exact add_nearest valid negativeValid
  simp only [sub, verifyNormal_eq valid, verifyNormal_eq otherValid, bind_eq_bind, bind_some]
  split_ifs with part first late
  · apply negated
    simp only [Valid, exact]
    omega
  · rw [int64_eq (by omega)]
    apply negated
    simp only [Valid, exact]
    omega
  · refine ⟨_, rfl, by unfold Valid; decide, ?_⟩
    simp only [clamp, exact, max, min]
    omega
  · rw [int64_eq (by omega), bind_some, int64_eq (by omega)]
    refine ⟨_, rfl, ?_⟩
    simp only [Valid, clamp, exact, max, min]
    omega

theorem compare_eq : time.compare other = (time.exact - other.exact).sign := by
  unfold Valid at valid otherValid
  unfold compare exact
  rw [eq_comm]
  split_ifs
  · exact Int.sign_eq_one_of_pos (by omega)
  · exact Int.sign_eq_neg_one_of_neg (by omega)
  · exact Int.sign_eq_one_of_pos (by omega)
  · exact Int.sign_eq_neg_one_of_neg (by omega)
  · exact Int.sign_eq_zero_iff_zero.mpr (by omega)

end

/-- All operations are exact up to the ends of the range. -/
theorem operations_exact {time other : Duration} (valid : time.Valid) (otherValid : other.Valid) :
    Nearest (time.add other) (time.exact + other.exact) ∧
    Nearest (time.sub other) (time.exact - other.exact) ∧
    (time = other ↔ time.exact = other.exact) ∧
    time.compare other = (time.exact - other.exact).sign ∧
    Rounds time.toTruncatedSeconds (divToward time.exact (10 ^ 9)) ∧
    Rounds time.toTruncatedMilliseconds (divToward time.exact (10 ^ 6)) ∧
    Rounds time.toTruncatedMicroseconds (divToward time.exact (10 ^ 3)) ∧
    Rounds time.toSeconds (divAway time.exact (10 ^ 9)) ∧
    Rounds time.toMilliseconds (divAway time.exact (10 ^ 6)) ∧
    Rounds time.toMicroseconds (divAway time.exact (10 ^ 3)) ∧
    Rounds time.toNanoseconds time.exact := by
  obtain ⟨inside, normal⟩ := id valid
  obtain ⟨otherInside, otherNormal⟩ := id otherValid
  have plain : Rounds (some time.seconds) time.seconds := by
    rw [← int64_eq inside]
    exact rounds_int64 inside
  refine ⟨add_nearest valid otherValid, sub_nearest valid otherValid,
    ⟨congrArg exact, fun same => ?_⟩, compare_eq valid otherValid, ?_, ?_, ?_, ?_, ?_, ?_, ?_⟩
  · obtain ⟨seconds, nanoseconds⟩ := time
    simp only [exact] at *
    congr <;> omega
  · have quotient : divToward time.exact (10 ^ 9) =
        if time.seconds < 0 ∧ time.nanoseconds ≠ 0 then time.seconds + 1
        else time.seconds := by
      simp only [divToward, exact]
      split_ifs <;> omega
    rw [quotient, toTruncatedSeconds, verifyNormal_eq valid]
    split_ifs with negative
    · exact rounds_int64 (by omega)
    · exact plain
  pick_goal 3
  · have quotient : divAway time.exact (10 ^ 9) =
        if 0 ≤ time.seconds ∧ time.nanoseconds ≠ 0 then time.seconds + 1
        else time.seconds := by
      simp only [divAway, exact]
      split_ifs <;> omega
    rw [quotient, toSeconds, verifyNormal_eq valid]
    split_ifs with positive
    · exact int64_getD rfl (by omega)
    · exact plain
  pick_goal 5
  · apply toUnits_rounds valid (by decide) (by omega)
    simp [exact]
  all_goals
    apply toUnits_rounds valid (by decide) (by split_ifs <;> omega)
    simp only [divToward, divAway, exact, decide_eq_true_eq]
    split_ifs <;> omega

/-- Half a second before zero, and the end of the range. -/
theorem operations_exact_half :
    Nearest (add ⟨-1, 500000000⟩ max) (exact ⟨-1, 500000000⟩ + max.exact) ∧
      Rounds (toTruncatedSeconds ⟨-1, 500000000⟩) (divToward (exact ⟨-1, 500000000⟩) (10 ^ 9)) := by
  have half : Valid ⟨-1, 500000000⟩ := by
    unfold Valid
    decide
  have last : max.Valid := by
    unfold Valid
    decide
  obtain ⟨sum, _, _, _, seconds, _⟩ := operations_exact half last
  exact ⟨sum, seconds⟩

end Duration

end MixUpOS.AK
