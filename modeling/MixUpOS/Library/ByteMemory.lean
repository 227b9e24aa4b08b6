import Mathlib.Algebra.Order.Ring.Int

/-!
# Memory as bytes

A memory gives each address a byte.  Numbers are stored in a number of bytes,
the lowest one first.
-/

namespace MixUpOS.Library

/-- The bytes at all addresses. -/
abbrev ByteMemory := Nat → BitVec 8

namespace ByteMemory

variable {memory later : ByteMemory} {address start stop count value : Nat}

/-- The number in `count` bytes. -/
def load (memory : ByteMemory) (address : Nat) : Nat → Nat
  | 0 => 0
  | count + 1 =>
    (memory address).toNat + 2 ^ 8 * load memory (address + 1) count

def store (memory : ByteMemory) (address : Nat) : Nat → Nat → ByteMemory
  | 0, _ => memory
  | count + 1, value =>
    store (Function.update memory address (BitVec.ofNat 8 value))
      (address + 1) count (value / 2 ^ 8)

/-- `memset`. -/
def fill (memory : ByteMemory) (start count : Nat) (byte : BitVec 8) : ByteMemory :=
  fun place => if start ≤ place ∧ place < start + count then byte
    else memory place

/-- Only bytes from `start` up to `stop` differ. -/
def Within (start stop : Nat) (memory later : ByteMemory) : Prop :=
  ∀ place, place < start ∨ stop ≤ place → later place = memory place

theorem Within.refl (memory : ByteMemory) : Within start stop memory memory := fun _ _ => rfl

theorem Within.trans (first : Within start stop memory later)
    (second : Within start stop later last) : Within start stop memory last := by
  intro place outside
  rw [second place outside, first place outside]

theorem Within.mono (within : Within lower upper memory later) (above : start ≤ lower)
    (below : upper ≤ stop) : Within start stop memory later := by
  intro place outside
  exact within place (by omega)

theorem within_fill (byte : BitVec 8) :
    Within start (start + count) memory (fill memory start count byte) := by
  intro place outside
  exact if_neg (by omega)

theorem within_store :
    Within address (address + count) memory (store memory address count value) := by
  induction count generalizing memory address value with
  | zero => exact Within.refl memory
  | succ count ih =>
    intro place outside
    rw [store, ih place (by omega)]
    exact Function.update_of_ne (by omega) _ _

theorem Within.load (within : Within start stop memory later)
    (apart : address + count ≤ start ∨ stop ≤ address) :
    later.load address count = memory.load address count := by
  induction count generalizing address with
  | zero => rfl
  | succ count ih =>
    rw [ByteMemory.load, ByteMemory.load, within address (by omega), ih (by omega)]

theorem load_store (small : value < 2 ^ (8 * count)) :
    (store memory address count value).load address count = value := by
  induction count generalizing memory address value with
  | zero =>
    have zero : value = 0 := by simpa using small
    rw [zero]
    rfl
  | succ count ih =>
    have rest : value / 2 ^ 8 < 2 ^ (8 * count) := by
      apply Nat.div_lt_of_lt_mul
      rw [← Nat.pow_add]
      have exponent : 8 + 8 * count = 8 * (count + 1) := by omega
      rw [exponent]
      exact small
    rw [store, load, ih rest, within_store address (by omega), Function.update_self]
    exact Nat.mod_add_div value (2 ^ 8)

end ByteMemory

end MixUpOS.Library
