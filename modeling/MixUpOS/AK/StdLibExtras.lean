import MixUpOS.AK.Builtins

/-!
# Rounding helpers

`round_up_to_power_of_two` works on 64-bit words and does not check that its
second argument is a power of two.  The lemmas say what it does for any
alignment, and what it does for a power of two.
-/

namespace MixUpOS.AK

/-- `((value - 1) & ~(power_of_two - 1)) + power_of_two`. -/
def roundUpToPowerOfTwo (value powerOfTwo : Nat) : Nat :=
  let value := BitVec.ofNat 64 value
  let powerOfTwo := BitVec.ofNat 64 powerOfTwo
  (((value - 1#64) &&& ~~~(powerOfTwo - 1#64)) + powerOfTwo).toNat

section

variable {value : Nat}

theorem toNat_and_not (word mask : BitVec width) :
    (word &&& ~~~mask).toNat = word.toNat - (word.toNat &&& mask.toNat) := by
  have disjoint : (word &&& ~~~mask) &&& (word &&& mask) = BitVec.ofNat width 0 := by
    ext bit within
    simp only [BitVec.getElem_and, BitVec.getElem_not, BitVec.getElem_zero]
    cases word[bit] <;> cases mask[bit] <;> rfl
  have joined : (word &&& ~~~mask) + (word &&& mask) = word := by
    rw [BitVec.add_eq_or_of_and_eq_zero _ _ disjoint]
    ext bit within
    simp only [BitVec.getElem_or, BitVec.getElem_and, BitVec.getElem_not]
    cases word[bit] <;> cases mask[bit] <;> rfl
  have sum := BitVec.toNat_add_of_and_eq_zero disjoint
  rw [joined, BitVec.toNat_and word mask] at sum
  omega

/-- The predecessor of a 64-bit word. -/
def wordPred (value : Nat) : Nat := (value + (2 ^ 64 - 1)) % 2 ^ 64

theorem wordPred_eq (pos : 0 < value) (fits : value ≤ 2 ^ 64) : wordPred value = value - 1 := by
  unfold wordPred
  omega

theorem roundUpToPowerOfTwo_word (value alignment : Nat) : roundUpToPowerOfTwo value alignment =
      (wordPred value - (wordPred value &&& wordPred alignment) + alignment) % 2 ^ 64 := by
  have pred : ∀ number : Nat, (BitVec.ofNat 64 number - 1#64).toNat = wordPred number := by
    intro number
    simp only [BitVec.toNat_sub, BitVec.toNat_ofNat, wordPred]
    omega
  rw [roundUpToPowerOfTwo]
  simp only [BitVec.toNat_add, toNat_and_not, pred, BitVec.toNat_ofNat]
  omega

/-- Without wrap-around the result is the predecessor of the value without
the bits of the alignment's predecessor, plus the alignment. -/
theorem roundUpToPowerOfTwo_eq (pos : 0 < value)
    (aligned : 0 < alignment) (fits : value + alignment ≤ 2 ^ 64) :
    roundUpToPowerOfTwo value alignment =
      value - 1 - ((value - 1) &&& (alignment - 1)) + alignment := by
  rw [roundUpToPowerOfTwo_word, wordPred_eq pos (by omega), wordPred_eq aligned (by omega)]
  omega

theorem roundUpToPowerOfTwo_zero (alignment : Nat) : roundUpToPowerOfTwo 0 alignment = 0 := by
  have zeroPred : wordPred 0 = 2 ^ 64 - 1 := by decide
  have mask : (2 ^ 64 - 1) &&& wordPred alignment = wordPred alignment := by
    rw [Nat.and_comm, Nat.and_two_pow_sub_one_eq_mod, wordPred, Nat.mod_mod]
  rw [roundUpToPowerOfTwo_word, zeroPred, mask]
  unfold wordPred
  omega

theorem wordPred_mod (narrow : exponent ≤ 64) (multiple : 2 ^ exponent ∣ alignment) :
    wordPred alignment % 2 ^ exponent = 2 ^ exponent - 1 := by
  have wide : 2 ^ exponent ∣ 2 ^ 64 := Nat.pow_dvd_pow 2 narrow
  obtain ⟨quotient, multipleEq⟩ : 2 ^ exponent ∣ alignment + 2 ^ 64 := Nat.dvd_add multiple wide
  have nonzero : quotient ≠ 0 := by
    rintro rfl
    omega
  obtain ⟨smaller, rfl⟩ := Nat.exists_eq_succ_of_ne_zero nonzero
  have shifted : alignment + (2 ^ 64 - 1) = 2 ^ exponent * smaller + (2 ^ exponent - 1) := by
    rw [Nat.mul_succ] at multipleEq
    omega
  rw [wordPred, Nat.mod_mod_of_dvd _ wide, shifted, Nat.mul_add_mod, Nat.mod_eq_of_lt (by omega)]

theorem dvd_roundUpToPowerOfTwo_of_dvd (narrow : exponent ≤ 64)
    (multiple : 2 ^ exponent ∣ alignment) (value : Nat) :
    2 ^ exponent ∣ roundUpToPowerOfTwo value alignment := by
  have wide : 2 ^ exponent ∣ 2 ^ 64 := Nat.pow_dvd_pow 2 narrow
  have low := wordPred_mod narrow multiple
  have same : (wordPred value &&& wordPred alignment) % 2 ^ exponent =
      wordPred value % 2 ^ exponent := by
    rw [Nat.and_mod_two_pow, low, Nat.and_two_pow_sub_one_eq_mod, Nat.mod_mod]
  rw [roundUpToPowerOfTwo_word]
  apply (Nat.dvd_mod_iff wide).mpr
  apply Nat.dvd_add _ multiple
  exact Nat.dvd_of_mod_eq_zero (Nat.sub_mod_eq_zero_of_mod_eq same.symm)

/-- Whatever the alignment, the result is less than one alignment away. -/
theorem roundUpToPowerOfTwo_bounds (aligned : 0 < alignment) (fits : value + alignment ≤ 2 ^ 64) :
    value ≤ roundUpToPowerOfTwo value alignment ∧
      roundUpToPowerOfTwo value alignment < value + alignment := by
  rcases Nat.eq_zero_or_pos value with rfl | pos
  · rw [roundUpToPowerOfTwo_zero]
    omega
  · have below : (value - 1) &&& (alignment - 1) ≤ alignment - 1 := Nat.and_le_right
    rw [roundUpToPowerOfTwo_eq pos aligned fits]
    omega

end

end MixUpOS.AK
