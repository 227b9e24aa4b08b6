import MixUpOS.Kernel.Memory.PhysicalZone

/-!
# Physical regions

A physical region is a range of physical memory cut into zones: as many of
16 MiB as fit, then as many of 1 MiB as fit.  A zone is on the list of usable
zones or on the list of full zones.  The lists hold zone numbers here; a zone
joins a list by leaving the one it is on, as `IntrusiveList::append` does.
-/

namespace MixUpOS.Kernel.Memory

open AK

/-- `next_power_of_two`, on a `u32`. -/
def nextPowerOfTwo (value : Nat) : Nat :=
  let value := (value + 2 ^ 32 - 1) % 2 ^ 32
  let value := value ||| value >>> 1
  let value := value ||| value >>> 2
  let value := value ||| value >>> 4
  let value := value ||| value >>> 8
  let value := value ||| value >>> 16
  (value + 1) % 2 ^ 32

/-- The kernel heap grows from its initial 16 MiB into a reserved range of
64 MiB. -/
def kernelHeapLimit : Nat := (16 + 64) * 2 ^ 20

/-- What the kernel heap can hand out at some moment. -/
structure KernelHeap where
  canAllocate : Nat → Bool
  bounded : ∀ bytes, canAllocate bytes = true → bytes ≤ kernelHeapLimit

/-- `try_ensure_capacity` of an empty vector of pointers. -/
def KernelHeap.tryEnsureCapacity (heap : KernelHeap) (count : Nat) : Bool :=
  count == 0 || heap.canAllocate (count * 8 % 2 ^ 64)

def largeZoneSize : Nat := 16 * 2 ^ 20

def smallZoneSize : Nat := 2 ^ 20

structure PhysicalRegion where
  zones : List PhysicalZone
  largeZones : Nat
  usableZones : List Nat
  fullZones : List Nat
  lower : Nat
  upper : Nat
  pages : Nat

namespace PhysicalRegion

variable (region : PhysicalRegion)

def create (lower upper : Nat) : PhysicalRegion where
  zones := []
  largeZones := 0
  usableZones := []
  fullZones := []
  lower := lower
  upper := upper
  pages := (upper - lower) / pageSize

def contains (paddr : Nat) : Bool := region.lower ≤ paddr && paddr < region.upper

def setZone (index : Nat) (zone : PhysicalZone) : PhysicalRegion :=
  { region with zones := region.zones.set index zone }

/-- `m_full_zones.append(zone)`. -/
def appendFull (index : Nat) : PhysicalRegion := { region with
    usableZones := region.usableZones.erase index
    fullZones := region.fullZones.erase index ++ [index] }

/-- `m_usable_zones.append(zone)`. -/
def appendUsable (index : Nat) : PhysicalRegion := { region with
    usableZones := region.usableZones.erase index ++ [index]
    fullZones := region.fullZones.erase index }

/-- The lambda `make_zones`, which returns the number of zones it made.  The
region, the base address and the remaining pages are the variables it
captures; `entries` are the page entries found at a zone's base address. -/
def makeZones (entries : Nat → Int → FreelistEntry) (zoneSize : Nat)
    (region : PhysicalRegion) (baseAddress remainingPages : Nat) :
    Option (PhysicalRegion × Nat × Nat × Nat) :=
  let pagesPerZone := zoneSize / pageSize
  if 0 < pagesPerZone ∧ pagesPerZone ≤ remainingPages then do
    let zone ← PhysicalZone.create (entries baseAddress) baseAddress pagesPerZone
    let region := { region with
      zones := region.zones ++ [zone]
      usableZones := region.usableZones ++ [region.zones.length] }
    let (region, baseAddress, remainingPages, zoneCount) ← makeZones entries zoneSize region
        (baseAddress + pagesPerZone * pageSize)
        (remainingPages - pagesPerZone)
    return (region, baseAddress, remainingPages, zoneCount + 1)
  else some (region, baseAddress, remainingPages, 0)
termination_by remainingPages
decreasing_by omega

def initializeZones (entries : Nat → Int → FreelistEntry)
    (region : PhysicalRegion) : Option PhysicalRegion := do
  let (region, baseAddress, remainingPages, zoneCount) ←
    makeZones entries largeZoneSize region region.lower region.pages
  let region := { region with largeZones := zoneCount }
  let (region, _) ← makeZones entries smallZoneSize region baseAddress remainingPages
  return region

/-- The loop of `take_contiguous_free_pages` over the given zones. -/
def allocateFromZones (order : Nat) :
    List Nat → PhysicalRegion → Option (PhysicalRegion × Option Nat)
  | [], region => some (region, none)
  | index :: rest, region => do
      let zone ← region.zones[index]?
      let (zone, pageBase) ← zone.allocateBlock order
      let region := region.setZone index zone
      match pageBase with
      | some address =>
        return (if zone.isEmpty then region.appendFull index else region, some address)
      | none => allocateFromZones order rest region

def takeContiguousFreePages (heap : KernelHeap)
    (count : Nat) : Option (PhysicalRegion × List Nat) := do
  let roundedPageCount := nextPowerOfTwo (count % 2 ^ 32)
  let order := countTrailingZeroes 32 roundedPageCount
  let (region, pageBase) ← allocateFromZones order region.usableZones region
  match pageBase with
  | none => return (region, [])
  | some pageBase =>
    verify (heap.tryEnsureCapacity count)
    return (region, (List.range count).map fun page => pageBase + page * pageSize)

def takeFreePage : Option (PhysicalRegion × Option Nat) :=
  match region.usableZones with
  | [] => some (region, none)
  | index :: _ => do
      let zone ← region.zones[index]?
      let (zone, page) ← zone.allocateBlock 0
      verify page.isSome
      let region := region.setZone index zone
      return (if zone.isEmpty then region.appendFull index else region, page)

/-- The zone that `return_page` gives the page back to. -/
def zoneIndex (paddr : Nat) : Nat :=
  let largeZoneBase := region.lower
  let smallZoneBase := region.lower + region.largeZones * largeZoneSize
  if paddr < smallZoneBase then (paddr - largeZoneBase) / largeZoneSize
  else region.largeZones + (paddr - smallZoneBase) / smallZoneSize

def returnPage (paddr : Nat) : Option PhysicalRegion := do
  let index := region.zoneIndex paddr
  let zone ← region.zones[index]?
  verify (zone.contains paddr)
  let zone ← zone.deallocateBlock paddr 0
  let region := region.setZone index zone
  return if index ∈ region.fullZones then region.appendUsable index
    else region

end PhysicalRegion

section

variable {original smeared width : Nat}

/-- Every bit of `smeared` is set if one of the `width` bits of `original`
from there upwards is. -/
def Smeared (original width smeared : Nat) : Prop :=
  ∀ bit, smeared.testBit bit = true ↔ ∃ distance, distance < width ∧
      original.testBit (bit + distance) = true

theorem smeared_one (original : Nat) : Smeared original 1 original := by
  intro bit
  constructor
  · exact fun set => ⟨0, by omega, set⟩
  · rintro ⟨distance, below, set⟩
    cases Nat.lt_one_iff.mp below
    exact set

theorem Smeared.double (smear : Smeared original width smeared) :
    Smeared original (width + width) (smeared ||| smeared >>> width) := by
  intro bit
  rw [Nat.testBit_or, Nat.testBit_shiftRight, Bool.or_eq_true, smear bit, smear (width + bit)]
  constructor
  · rintro (⟨distance, below, set⟩ | ⟨distance, below, set⟩)
    · exact ⟨distance, by omega, set⟩
    · refine ⟨width + distance, by omega, ?_⟩
      rwa [← Nat.add_assoc, Nat.add_comm bit width]
  · rintro ⟨distance, below, set⟩
    by_cases near : distance < width
    · exact .inl ⟨distance, near, set⟩
    · refine .inr ⟨distance - width, by omega, ?_⟩
      have sameBit : width + bit + (distance - width) = bit + distance := by omega
      rwa [sameBit]

theorem Smeared.eq (smear : Smeared original width smeared) (above : original < 2 ^ (exponent + 1))
    (below : 2 ^ exponent ≤ original) (wide : exponent < width) :
    smeared = 2 ^ (exponent + 1) - 1 := by
  have highest : original.testBit exponent = true :=
    Nat.testBit_of_two_pow_le_and_two_pow_add_one_gt below above
  refine Nat.eq_of_testBit_eq fun bit => ?_
  rw [Bool.eq_iff_iff, smear bit, Nat.testBit_two_pow_sub_one, decide_eq_true_iff]
  constructor
  · rintro ⟨distance, _, set⟩
    have large := Nat.ge_two_pow_of_testBit set
    have small : bit + distance < exponent + 1 :=
      (Nat.pow_lt_pow_iff_right (by omega : 1 < 2)).mp (Nat.lt_of_le_of_lt large above)
    omega
  · intro within
    refine ⟨exponent - bit, by omega, ?_⟩
    have sameBit : bit + (exponent - bit) = exponent := by omega
    rwa [sameBit]

theorem nextPowerOfTwo_eq (above : value ≤ 2 ^ exponent) (below : 2 ^ exponent < 2 * value)
    (wide : exponent < 32) : nextPowerOfTwo value = 2 ^ exponent := by
  have limit : 2 ^ exponent ≤ 2 ^ 31 := Nat.pow_le_pow_right (by omega) (by omega)
  have decrement : (value + 2 ^ 32 - 1) % 2 ^ 32 = value - 1 := by omega
  have smear := (smeared_one (value - 1)).double.double.double.double.double
  unfold nextPowerOfTwo
  simp only [decrement]
  cases exponent with
  | zero =>
    have one : value = 1 := by omega
    subst one
    rfl
  | succ exponent =>
    have topBit : value - 1 < 2 ^ (exponent + 1) := by
      omega
    have result := smear.eq topBit (by omega) (by omega)
    simp only [Nat.reduceAdd] at result
    omega

end

end MixUpOS.Kernel.Memory
