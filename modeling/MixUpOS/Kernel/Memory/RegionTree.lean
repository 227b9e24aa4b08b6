import MixUpOS.AK.StdLibExtras
import MixUpOS.Kernel.Memory.Region
import MixUpOS.Library.Intervals

/-!
# Region trees

A region tree holds the regions of an address space, keyed by their base
addresses.  The red-black tree is an ordered list here.  `none` is a failed
`VERIFY`; an error code is a value.
-/

namespace MixUpOS.Kernel.Memory

open AK Library

structure RegionTree where
  totalRange : VirtualRange
  regions : List Region
deriving DecidableEq, Repr

inductive RandomizeVirtualAddress where
  | no
  | yes
deriving DecidableEq, Repr

namespace RegionTree

variable (tree : RegionTree)

/-- The lambda `allocate_from_window`. -/
def allocateFromWindow (size alignment : Nat) (window : VirtualRange) : Option VirtualRange :=
  if window.size < size + alignment then none
  else some ⟨roundUpToPowerOfTwo window.base alignment, size⟩

/-- The loop of `allocate_range_anywhere`.  It returns the range found, or
the start of the window behind the last region. -/
def searchWindows (size alignment : Nat) : List Region → Nat → VirtualRange ⊕ Nat
  | [], windowStart => .inr windowStart
  | region :: rest, windowStart =>
    if windowStart = region.base then
      searchWindows size alignment rest region.range.endAddress
    else
      let window : VirtualRange := ⟨windowStart, addressDifference region.base windowStart⟩
      match allocateFromWindow size alignment window with
      | some range => .inl range
      | none =>
        searchWindows size alignment rest region.range.endAddress

def allocateRangeAnywhere (size alignment : Nat) : Option (ErrorOr VirtualRange) :=
  if size = 0 then some (.error .EINVAL)
  else do
    verify (size % pageSize == 0)
    verify (alignment % pageSize == 0)
    if 2 ^ 64 ≤ size + alignment then return .error .EOVERFLOW
    else
      let found := searchWindows size alignment tree.regions tree.totalRange.base
      match found with
      | .inl range => return .ok range
      | .inr windowStart =>
        let window : VirtualRange := ⟨windowStart,
          addressDifference tree.totalRange.endAddress windowStart⟩
        if tree.totalRange.contains window then
          match allocateFromWindow size alignment window with
          | some range => return .ok range
          | none => return .error .ENOMEM
        else return .error .ENOMEM

/-- `m_regions.find_largest_not_above(key)`. -/
def findLargestNotAbove (key : Nat) : Option Region :=
  Intervals.largestNotAbove Region.base key tree.regions

def allocateRangeSpecific (base size : Nat) : Option (ErrorOr VirtualRange) :=
  if size = 0 then some (.error .EINVAL)
  else do
    verify (base % pageSize == 0)
    verify (size % pageSize == 0)
    let range : VirtualRange := ⟨base, size⟩
    if tree.totalRange.contains range then
      match tree.findLargestNotAbove (offsetAddress base (size - 1)) with
      | none => return .ok range
      | some region =>
        if region.range.intersects range then return .error .ENOMEM
        else return .ok range
    else return .error .ENOMEM

def maximumRandomizationAttempts : Nat := 1000

/-- The attempts of `allocate_range_randomized`, the given number of which
are left.  `random` are the words that `get_fast_random` returns; the
remainder by an end of zero traps. -/
def tryRandomAddresses (tree : RegionTree) (size alignment : Nat)
    (random : Nat → Nat) : Nat → Option (ErrorOr VirtualRange)
  | 0 => tree.allocateRangeAnywhere size alignment
  | attempts + 1 => do
      verify (tree.totalRange.endAddress != 0)
      let randomAddress := roundUpToPowerOfTwo
        (random attempts % tree.totalRange.endAddress) alignment
      if tree.totalRange.contains ⟨randomAddress, size⟩ then
        match ← tree.allocateRangeSpecific randomAddress size with
        | .ok range => return .ok range
        | .error _ => tryRandomAddresses tree size alignment random attempts
      else tryRandomAddresses tree size alignment random attempts

def allocateRangeRandomized (size alignment : Nat)
    (random : Nat → Nat) : Option (ErrorOr VirtualRange) :=
  if size = 0 then some (.error .EINVAL)
  else do
    verify (size % pageSize == 0)
    verify (alignment % pageSize == 0)
    tree.tryRandomAddresses size alignment random maximumRandomizationAttempts

/-- `region.m_range = range; m_regions.insert(region.vaddr().get(), region)`. -/
def insertAt (region : Region) (range : VirtualRange) : RegionTree :=
  { tree with
    regions := Intervals.insert Region.base { region with range := range } tree.regions }

def placeAnywhere (region : Region) (randomize : RandomizeVirtualAddress) (random : Nat → Nat)
    (size alignment : Nat) : Option (ErrorOr RegionTree) := do
  let allocation :=
    match randomize with
    | .yes => tree.allocateRangeRandomized size alignment random
    | .no => tree.allocateRangeAnywhere size alignment
  let range ← allocation
  return range.map (tree.insertAt region)

def placeSpecifically (region : Region) (range : VirtualRange) : Option (ErrorOr RegionTree) := do
  let allocated ← tree.allocateRangeSpecific range.base range.size
  return allocated.map (tree.insertAt region)

/-- `remove(region)`, which looks for the region's base address. -/
def remove (tree : RegionTree) (region : Region) : RegionTree × Bool := ({ tree with
      regions := Intervals.remove Region.base region.base tree.regions },
    (Intervals.find Region.base region.base tree.regions).isSome)

/-- Setting the access of a region of the tree in place. -/
def setAccess (tree : RegionTree) (region : Region) (access : Access) : RegionTree := { tree with
    regions := Intervals.update Region.base region.base
      (fun old => old.setAccess access) tree.regions }

def findRegionContaining (range : VirtualRange) : Option Region :=
  match tree.findLargestNotAbove range.base with
  | none => none
  | some region => if region.range.contains range then some region else none

end RegionTree

end MixUpOS.Kernel.Memory
