import Mathlib.Algebra.Order.Ring.Int
import Mathlib.Data.List.Range

/-!
# Assertions and integer builtins

A failing `VERIFY` stops the kernel for good.  Code that can fail one is
modelled in `Option`, where `none` is the stopped kernel; an error code that
is handed back to the caller is a value and not a failure in this sense.
-/

namespace MixUpOS.AK

/-- `VERIFY(condition)`. -/
def verify (condition : Bool) : Option Unit :=
  if condition then some () else none

@[simp] theorem verify_true : verify true = some () := rfl

theorem verify_eq_some (holds : condition = true) : verify condition = some () := by
  simp [holds]

theorem some_bind (value : α) (next : α → Option β) : (some value >>= next) = next value := rfl

/-- `count_trailing_zeroes` of a value of the given width.  The builtin is
undefined at zero; the portable loop of the source then returns the width. -/
def countTrailingZeroes (width value : Nat) : Nat :=
  ((List.range width).find? value.testBit).getD width

def ceilDiv (dividend divisor : Nat) : Nat :=
  dividend / divisor + if dividend % divisor = 0 then 0 else 1

theorem countTrailingZeroes_two_pow (bound : exponent < width) :
    countTrailingZeroes width (2 ^ exponent) = exponent := by
  have found : (List.range width).find? (2 ^ exponent).testBit = some exponent := by
    rw [List.find?_range_eq_some]
    refine ⟨by simp, by simpa using bound, ?_⟩
    intro smaller isSmaller
    simp [Nat.testBit_two_pow]
    omega
  simp [countTrailingZeroes, found]

end MixUpOS.AK
