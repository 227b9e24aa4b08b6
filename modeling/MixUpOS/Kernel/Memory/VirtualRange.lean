import MixUpOS.AK.Error
import MixUpOS.Kernel.Memory.PhysicalZone

/-!
# Virtual ranges

Virtual addresses are 64-bit words.  They are numbers here, and the places
where the code can wrap around reduce modulo `2 ^ 64`.
-/

namespace MixUpOS.Kernel.Memory

open AK

/-- `VirtualAddress::offset`. -/
def offsetAddress (address offset : Nat) : Nat := (address + offset) % 2 ^ 64

/-- The difference of two addresses as a word. -/
def addressDifference (address other : Nat) : Nat := (address + (2 ^ 64 - other)) % 2 ^ 64

def pageRoundUp (address : Nat) : ErrorOr Nat :=
  if address > 2 ^ 64 - pageSize then .error .EINVAL
  else .ok ((address + (pageSize - 1)) / pageSize * pageSize % 2 ^ 64)

structure VirtualRange where
  base : Nat
  size : Nat
deriving DecidableEq, Repr

namespace VirtualRange

def endAddress (range : VirtualRange) : Nat := offsetAddress range.base range.size

def contains (range other : VirtualRange) : Bool :=
  if other.endAddress < other.base then false
  else range.base ≤ other.base && other.endAddress ≤ range.endAddress

def carve (range taken : VirtualRange) : Option (List VirtualRange) := do
  verify (taken.size % pageSize == 0)
  if taken = range then return []
  else
    let before :=
      if taken.base > range.base then
        [⟨range.base, addressDifference taken.base range.base⟩]
      else []
    let after :=
      if taken.endAddress < range.endAddress then
        [⟨taken.endAddress, addressDifference range.endAddress taken.endAddress⟩]
      else []
    return before ++ after

def intersects (range other : VirtualRange) : Bool :=
  let (first, second) :=
    if range.base > other.base then (other, range) else (range, other)
  first.base < second.endAddress && second.base < first.endAddress

def intersect (range other : VirtualRange) : Option VirtualRange :=
  if range = other then some range
  else do
    let newBase := max range.base other.base
    let newEnd := min range.endAddress other.endAddress
    verify (newBase < newEnd)
    return ⟨newBase, addressDifference newEnd newBase⟩

def expandToPageBoundaries (address size : Nat) : ErrorOr VirtualRange :=
  if offsetAddress address size < address then .error .EINVAL
  else do
    let base := address / pageSize * pageSize
    let endAddress ← pageRoundUp (offsetAddress address size)
    return ⟨base, addressDifference endAddress base⟩

/-- The range ends before the address space does. -/
def Bounded (range : VirtualRange) : Prop := range.base + range.size < 2 ^ 64

def stop (range : VirtualRange) : Nat := range.base + range.size

section

variable {range : VirtualRange}

theorem eq_of_bounds (base : range.base = other.base) (stop : range.stop = other.stop) :
    range = other := by
  cases range
  cases base
  exact congrArg (mk _) (Nat.add_left_cancel stop)

theorem Bounded.endAddress (bounded : Bounded range) : range.endAddress = range.stop :=
  Nat.mod_eq_of_lt bounded

theorem addressDifference_eq {address base : Nat} (order : base ≤ address)
    (bound : address < 2 ^ 64) : addressDifference address base = address - base := by
  unfold addressDifference
  omega

theorem intersects_iff (bounded : Bounded range) (otherBounded : Bounded other) :
    range.intersects other = true ↔ range.base < other.stop ∧ other.base < range.stop := by
  unfold intersects
  split
  next first second equality =>
    split at equality
    · cases equality
      simp only [Bool.and_eq_true, decide_eq_true_iff, bounded.endAddress, otherBounded.endAddress]
      omega
    · cases equality
      simp [bounded.endAddress, otherBounded.endAddress]

theorem contains_iff (bounded : Bounded range) (word : other.base < 2 ^ 64)
    (small : other.size < 2 ^ 64) :
    range.contains other = true ↔ range.base ≤ other.base ∧ other.stop ≤ range.stop := by
  unfold contains
  unfold Bounded at bounded
  unfold VirtualRange.endAddress offsetAddress stop
  split
  · simp only [Bool.false_eq_true, false_iff]
    omega
  · simp only [Bool.and_eq_true, decide_eq_true_iff]
    omega

end

end VirtualRange

end MixUpOS.Kernel.Memory
