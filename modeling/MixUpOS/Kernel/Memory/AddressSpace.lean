import MixUpOS.Kernel.Memory.RegionTree
import MixUpOS.Library.Programs

/-!
# Address spaces

The region tree of a process and the operations that split its regions.  Page
tables are not modelled: mapping a region checks what the code checks and asks
for memory once a page.  Whether a request for memory is granted is part of
the state, one answer a request.
-/

namespace MixUpOS.Kernel.Memory

open AK Library Library.Programs

/-- What the kernel's address layout depends on. -/
structure BootInfo where
  kernelMappingBase : Nat

namespace BootInfo

def userRangeBase : Nat := 0x10000

def userRangeCeiling (boot : BootInfo) : Nat := addressDifference boot.kernelMappingBase 0x2000000

def isUserAddress (boot : BootInfo) (address : Nat) : Bool := address < boot.userRangeCeiling

def isUserRange (boot : BootInfo) (range : VirtualRange) : Bool :=
  if range.endAddress < range.base then false
  else if !boot.isUserAddress range.base then false
  else if range.size ≤ 1 then true
  else boot.isUserAddress (offsetAddress range.base (range.size - 1))

end BootInfo

structure AddressSpace where
  regionTree : RegionTree
  memory : Nat → Bool

/-- A kernel operation on an address space. -/
abbrev Command := Program AddressSpace ErrNo

namespace AddressSpace

variable (boot : BootInfo) (region : Region)

/-- A request for kernel memory. -/
def requestMemory : Command Unit := ExceptT.mk fun space =>
  let later := { space with memory := fun index => space.memory (index + 1) }
  if space.memory 0 then some (.ok (), later)
  else some (.error .ENOMEM, later)

/-- The region tree. -/
def readTree : Command RegionTree := ExceptT.mk fun space => some (.ok space.regionTree, space)

def writeTree (tree : RegionTree) : Command Unit :=
  ExceptT.mk fun space => some (.ok (), { space with regionTree := tree })

def isUser : Bool := !(region.base < BootInfo.userRangeBase || region.base ≥ boot.kernelMappingBase)

/-- `map_individual_page_impl` for each of the pages. -/
def mapPages (boot : BootInfo) (region : Region) : List Nat → Command Unit
  | [] => pure ()
  | page :: rest => do
      let vaddr := offsetAddress region.base (page * pageSize)
      let userAllowed := BootInfo.userRangeBase ≤ vaddr && boot.isUserAddress vaddr
      assert (!(region.mmap && !userAllowed))
      requestMemory
      mapPages boot region rest

def map : Command Unit := do
  assert (!(isUser boot region && !region.shared && region.vmobject.isSharedInode))
  refuseIf (region.range.size / pageSize == 0) .ENOMEM
  mapPages boot region (List.range (region.range.size / pageSize))

/-- `Region::remap`, which does not handle an error. -/
def remap : Command Unit := mustSucceed (map boot region)

def mapAll (boot : BootInfo) : List Region → Command Unit
  | [] => pure ()
  | region :: rest => do
      map boot region
      mapAll boot rest

def takeRegion : Command Unit := do
  let tree ← readTree
  writeTree (tree.remove region).1
  assert (tree.remove region).2

def deallocateRegion : Command Unit := takeRegion region

def placeSpecifically (region : Region) (range : VirtualRange) : Command Region := do
  let tree ← readTree
  let placed ← asserted (tree.placeSpecifically region range)
  let later ← fallible placed
  writeTree later
  return { region with range := range }

/-- The region that `try_allocate_split_region` makes. -/
def splitRegion (source : Region) (offsetInVMObject : Nat) : Region :=
  { Region.createUnplaced source.vmobject offsetInVMObject source.name
      source.access source.memoryType source.shared with
    syscallRegion := source.syscallRegion
    mmap := source.mmap
    mmappedFromReadable := source.mmappedFromReadable
    mmappedFromWritable := source.mmappedFromWritable
    stack := source.stack }

/-- `KString::try_create` of the name, if there is one. -/
def copyName (source : Region) : Command Unit :=
  if source.name.isSome then requestMemory else pure ()

def tryAllocateSplitRegion (source : Region) (range : VirtualRange)
    (offsetInVMObject : Nat) : Command Region := do
  copyName source
  requestMemory
  placeSpecifically (splitRegion source offsetInVMObject) range

/-- `offset_in_vmobject + (base - region.base)`. -/
def splitOffset (source : Region) (base : Nat) : Nat :=
  (source.offsetInVMObject + addressDifference base source.base) % 2 ^ 64

/-- The lambda `try_make_replacement_region` for each range. -/
def makeReplacementRegions (source : Region) : List VirtualRange → Command (List Region)
  | [] => pure []
  | range :: rest => do
      assert (source.range.contains range)
      let region ← tryAllocateSplitRegion source range (splitOffset source range.base)
      let regions ← makeReplacementRegions source rest
      return region :: regions

def trySplitRegionAroundRange (source : Region) (desired : VirtualRange) :
    Command (List Region) := do
  let remaining ← asserted (source.range.carve desired)
  assert (!remaining.isEmpty)
  makeReplacementRegions source remaining

def findRegionFromRange (tree : RegionTree) (range : VirtualRange) : Option Region :=
  match Intervals.find Region.base range.base tree.regions with
  | none => none
  | some region =>
    match pageRoundUp range.size with
    | .error _ => none
    | .ok rounded =>
      if region.range.size = rounded then some region else none

/-- The loop of `find_regions_intersecting`. -/
def collectIntersecting (range : VirtualRange) : List Region → Nat → Command (List Region)
  | [], _ => pure []
  | region :: rest, totalSizeCollected =>
    if region.base < range.endAddress && region.range.endAddress > range.base then do
      requestMemory
      let overlap ← asserted (region.range.intersect range)
      let total := (totalSizeCollected + addressDifference region.range.size overlap.size) % 2 ^ 64
      if total = range.size then return [region]
      else
        let regions ← collectIntersecting range rest total
        return region :: regions
    else collectIntersecting range rest totalSizeCollected

def findRegionsIntersecting (range : VirtualRange) : Command (List Region) := do
  let tree ← readTree
  match tree.findLargestNotAbove range.base with
  | none => return []
  | some found =>
    collectIntersecting range (tree.regions.dropWhile fun region => region.base != found.base) 0

/-- The checks that protect regions from being unmapped. -/
def checkUnmappable : Command Unit := do
  refuseIf (!region.mmap) .EPERM
  refuseIf region.immutable .EPERM

def checkAllUnmappable : List Region → Command Unit
  | [] => pure ()
  | region :: rest => do
      checkUnmappable region
      checkAllUnmappable rest

/-- Take a region out and put back what lies outside the range. -/
def takeAndSplit (range : VirtualRange) : Command (List Region) := do
  takeRegion region
  trySplitRegionAroundRange region range

/-- The loop of `unmap_mmap_range` over several regions, which collects the
new regions. -/
def unmapRegions (range : VirtualRange) : List Region → Command (List Region)
  | [] => pure []
  | region :: rest => do
      let overlap ← asserted (region.range.intersect range)
      if overlap.size = region.range.size then
        deallocateRegion region
        unmapRegions range rest
      else
        let splitRegions ← takeAndSplit region range
        requestMemory
        let newRegions ← unmapRegions range rest
        return splitRegions ++ newRegions

def unmapWholeRegion : Command Unit := do
  checkUnmappable region
  deallocateRegion region

def unmapFromContainingRegion (range : VirtualRange) : Command Unit := do
  checkUnmappable region
  let newRegions ← takeAndSplit region range
  mapAll boot newRegions

def unmapFromSeveralRegions (range : VirtualRange) : Command Unit := do
  let regions ← findRegionsIntersecting range
  checkAllUnmappable regions
  let newRegions ← unmapRegions range regions
  mapAll boot newRegions

def unmapMmapRange (addr size : Nat) : Command Unit := do
  refuseIf (size == 0) .EINVAL
  let range ← fallible (VirtualRange.expandToPageBoundaries addr size)
  refuseIf (!boot.isUserRange range) .EFAULT
  let tree ← readTree
  match findRegionFromRange tree range with
  | some wholeRegion => unmapWholeRegion wholeRegion
  | none =>
    match tree.findRegionContaining range with
    | some oldRegion => unmapFromContainingRegion boot oldRegion range
    | none => unmapFromSeveralRegions boot range

end AddressSpace

end MixUpOS.Kernel.Memory
