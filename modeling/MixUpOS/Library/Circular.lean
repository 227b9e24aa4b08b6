import Mathlib.Algebra.Order.Ring.Int
import Mathlib.Tactic.SplitIfs

/-!
# Circular indices

The indices below `count`, where the last one is followed by the first.
`distance count start index` is the number of steps from `start` to `index`.
-/

namespace MixUpOS.Library.Circular

def next (count index : Nat) : Nat :=
  if index + 1 = count then 0 else index + 1

/-- The number of steps from `start` to `index`. -/
def distance (count start index : Nat) : Nat :=
  if index < start then count + index - start else index - start

variable {count index : Nat}

theorem next_lt (bound : index < count) : next count index < count := by
  unfold next
  split_ifs <;> omega

theorem lt_of_next_lt (bound : next count index < count) : index < count := by
  unfold next at bound
  split_ifs at bound <;> omega

theorem next_of_lt (bound : index + 1 < count) : next count index = index + 1 := by
  simp [next, Nat.ne_of_lt bound]

theorem next_injective (same : next count index = next count other) : index = other := by
  unfold next at same
  split_ifs at same <;> omega

theorem distance_lt (startBound : start < count) (bound : index < count) :
    distance count start index < count := by
  unfold distance
  split_ifs <;> omega

@[simp] theorem distance_self : distance count start start = 0 := by
  simp [distance]

section

variable (startBound : start < count)

include startBound

theorem distance_injective (bound : index < count) (otherBound : other < count)
    (same : distance count start index = distance count start other) : index = other := by
  unfold distance at same
  split_ifs at same <;> omega

theorem distance_next (continues : next count index ≠ start) :
    distance count start (next count index) = distance count start index + 1 := by
  unfold next at *
  unfold distance
  split_ifs at * <;> omega

theorem distance_of_next_eq (closes : next count index = start) :
    distance count start index + 1 = count := by
  unfold next at closes
  unfold distance
  split_ifs at * <;> omega

theorem next_ne_of_distance_lt (bound : other < count)
    (farther : distance count start index < distance count start other) :
    next count index ≠ start := by
  intro closes
  have last := distance_of_next_eq startBound closes
  have farthest := distance_lt startBound bound
  omega

theorem distance_of_next (bound : index < count) (apart : start ≠ index) :
    distance count (next count start) index + 1 = distance count start index := by
  unfold next distance
  split_ifs <;> omega

end

end MixUpOS.Library.Circular
