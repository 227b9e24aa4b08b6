import MixUpOS.Kernel.Memory.PhysicalRegion

/-!
# Physical page management

The memory manager counts the physical pages of the machine: those in use,
those promised to a `CommittedPhysicalPageSet` and those neither used nor
promised.  The pages themselves are kept by the physical regions.  Everything
here happens under the lock of the manager's global data.
-/

namespace MixUpOS.Kernel.Memory

open AK

structure SystemMemoryInfo where
  physicalPages : Nat
  physicalPagesUsed : Nat
  physicalPagesCommitted : Nat
  physicalPagesUncommitted : Nat
deriving DecidableEq, Repr

structure GlobalData where
  physicalRegions : List PhysicalRegion
  systemMemoryInfo : SystemMemoryInfo

namespace GlobalData

variable (data : GlobalData)

/-- `initialize_zones` for each region in turn. -/
def initializeRegions (entries : Nat → Int → FreelistEntry) :
    List (Nat × Nat) → Option (List PhysicalRegion)
  | [] => some []
  | (lower, upper) :: rest => do
      let region ← (PhysicalRegion.create lower upper).initializeZones entries
      let regions ← initializeRegions entries rest
      return region :: regions

/-- The end of `parse_memory_map`.  The ranges are those of the physical
regions left after the page entries themselves have been placed. -/
def parseMemoryMap (entries : Nat → Int → FreelistEntry)
    (ranges : List (Nat × Nat)) : Option GlobalData := do
  let physicalPages := (ranges.map fun range =>
    (PhysicalRegion.create range.1 range.2).pages).sum
  let regions ← initializeRegions entries ranges
  return {
    physicalRegions := regions
    systemMemoryInfo := {
      physicalPages := physicalPages
      physicalPagesUsed := 0
      physicalPagesCommitted := 0
      physicalPagesUncommitted := physicalPages } }

/-- The set that a successful call returns has `pageCount` pages; `none`
stands for `ENOMEM`. -/
def commitPhysicalPages (pageCount : Nat) : Option (GlobalData × Option Nat) := do
  verify (0 < pageCount)
  let info := data.systemMemoryInfo
  if info.physicalPagesUncommitted < pageCount then return (data, none)
  else return ({ data with
      systemMemoryInfo := { info with
        physicalPagesUncommitted := info.physicalPagesUncommitted - pageCount
        physicalPagesCommitted := info.physicalPagesCommitted + pageCount } },
    some pageCount)

def uncommitPhysicalPages (pageCount : Nat) : Option GlobalData := do
  verify (0 < pageCount)
  let info := data.systemMemoryInfo
  verify (pageCount ≤ info.physicalPagesCommitted)
  return { data with
    systemMemoryInfo := { info with
      physicalPagesUncommitted := info.physicalPagesUncommitted + pageCount
      physicalPagesCommitted := info.physicalPagesCommitted - pageCount } }

/-- The search of `deallocate_physical_page` for the region of the page; it
ends in a `PANIC` if there is none. -/
def returnToRegion (paddr : Nat) : List PhysicalRegion → Option (List PhysicalRegion)
  | [] => none
  | region :: rest =>
    if region.contains paddr then do
      let region ← region.returnPage paddr
      return region :: rest
    else do
      let rest ← returnToRegion paddr rest
      return region :: rest

def deallocatePhysicalPage (paddr : Nat) : Option GlobalData := do
  let regions ← returnToRegion paddr data.physicalRegions
  let info := data.systemMemoryInfo
  return {
    physicalRegions := regions
    systemMemoryInfo := { info with
      physicalPagesUsed := info.physicalPagesUsed - 1
      physicalPagesUncommitted := info.physicalPagesUncommitted + 1 } }

/-- The loop of `find_free_physical_page` over the regions. -/
def takeFromRegions : List PhysicalRegion → Option (List PhysicalRegion × Option Nat)
  | [] => some ([], none)
  | region :: rest => do
      let (region, page) ← region.takeFreePage
      match page with
      | some page => return (region :: rest, some page)
      | none =>
        let (rest, page) ← takeFromRegions rest
        return (region :: rest, page)

/-- The end of `find_free_physical_page`, after the counter of the pool that
the page is drawn from went down. -/
def takeCountedPage : Option (GlobalData × Option Nat) := do
  let (regions, page) ← takeFromRegions data.physicalRegions
  let info := data.systemMemoryInfo
  return ({
      physicalRegions := regions
      systemMemoryInfo := { info with
        physicalPagesUsed := info.physicalPagesUsed + if page.isSome then 1 else 0 } },
    page)

def findFreePhysicalPage (committed : Bool) : Option (GlobalData × Option Nat) :=
  let info := data.systemMemoryInfo
  if committed then do
    verify (0 < info.physicalPagesCommitted)
    takeCountedPage { data with
      systemMemoryInfo := { info with
        physicalPagesCommitted := info.physicalPagesCommitted - 1 } }
  else if info.physicalPagesUncommitted = 0 then some (data, none)
  else takeCountedPage { data with
    systemMemoryInfo := { info with
      physicalPagesUncommitted := info.physicalPagesUncommitted - 1 } }

def allocateCommittedPhysicalPage : Option (GlobalData × Nat) := do
  let (data, page) ← data.findFreePhysicalPage true
  let page ← page
  return (data, page)

/-- The pages whose last reference is dropped are deallocated in turn. -/
def deallocatePhysicalPages (pages : List Nat) : Option GlobalData :=
  pages.foldlM deallocatePhysicalPage data

/-- One of the two attempts of `allocate_physical_page` to free something up.
`released` is `none` if no object of the kind gave up a page, and otherwise
the pages that the first one to do so held the last reference to.  The spinlock
`m_global_data` is left out, which freeing the pages takes again. -/
def reclaimPhysicalPage (released : Option (List Nat)) : Option (GlobalData × Option Nat) :=
  match released with
  | none => some (data, none)
  | some pages => do
      let data ← data.deallocatePhysicalPages pages
      let (data, page) ← data.findFreePhysicalPage false
      verify page.isSome
      return (data, page)

/-- `purged` is what the volatile objects release and `cleaned` what the
file-backed objects release; a `none` page stands for `ENOMEM`. -/
def allocatePhysicalPage (purged cleaned : Option (List Nat)) :
    Option (GlobalData × Option Nat) := do
  let (data, page) ← data.findFreePhysicalPage false
  if page.isSome then return (data, page)
  else do
    let (data, page) ← data.reclaimPhysicalPage purged
    if page.isSome then return (data, page)
    else data.reclaimPhysicalPage cleaned

/-- The loop of `allocate_contiguous_physical_pages` over the regions. -/
def takeContiguousFromRegions (heap : KernelHeap) (pageCount : Nat) :
    List PhysicalRegion → Option (List PhysicalRegion × List Nat)
  | [] => some ([], [])
  | region :: rest => do
      let (region, pages) ← region.takeContiguousFreePages heap pageCount
      if pages.isEmpty then do
        let (rest, pages) ← takeContiguousFromRegions heap pageCount rest
        return (region :: rest, pages)
      else return (region :: rest, pages)

/-- The part of `allocate_contiguous_physical_pages` under the lock; an empty
list stands for `ENOMEM`.  If the pages cannot be mapped for cleaning
afterwards, the caller sees an error and the pages are deallocated. -/
def allocateContiguousPhysicalPages (heap : KernelHeap)
    (size : Nat) : Option (GlobalData × List Nat) := do
  verify (size % pageSize == 0)
  let pageCount := ceilDiv size pageSize
  let info := data.systemMemoryInfo
  if info.physicalPagesUncommitted < pageCount then return (data, [])
  else do
    let (regions, pages) ← takeContiguousFromRegions heap pageCount data.physicalRegions
    if pages.isEmpty then
      return ({ data with physicalRegions := regions }, [])
    else return ({
        physicalRegions := regions
        systemMemoryInfo := { info with
          physicalPagesUncommitted := info.physicalPagesUncommitted - pageCount
          physicalPagesUsed := info.physicalPagesUsed + pageCount } },
      pages)

end GlobalData

structure CommittedPhysicalPageSet where
  pageCount : Nat
deriving DecidableEq, Repr

namespace CommittedPhysicalPageSet

def destroy (set : CommittedPhysicalPageSet) (data : GlobalData) : Option GlobalData :=
  if set.pageCount ≠ 0 then data.uncommitPhysicalPages set.pageCount
  else some data

def takeOne (set : CommittedPhysicalPageSet) (data : GlobalData) :
    Option (CommittedPhysicalPageSet × GlobalData × Nat) := do
  verify (0 < set.pageCount)
  let (data, page) ← data.allocateCommittedPhysicalPage
  return (⟨set.pageCount - 1⟩, data, page)

def uncommitOne (set : CommittedPhysicalPageSet) (data : GlobalData) :
    Option (CommittedPhysicalPageSet × GlobalData) := do
  verify (0 < set.pageCount)
  let data ← data.uncommitPhysicalPages 1
  return (⟨set.pageCount - 1⟩, data)

end CommittedPhysicalPageSet

end MixUpOS.Kernel.Memory
