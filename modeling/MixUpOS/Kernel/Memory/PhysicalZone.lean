import MixUpOS.AK.Builtins
import MixUpOS.Library.IntrusiveList

/-!
# The physical zone allocator

`PhysicalZone` manages a power-of-two run of physical pages.  It counts in
chunks of half a page and hands out blocks of `2 ^ order` pages.  Free blocks
of one order are linked through the page entries of their first pages, and
every pair of buddies has one bit in the bitmap of its order.

The page entries belong to the memory manager and are shared by all zones.
Zones do not overlap, so each zone is given the entries of its own pages,
indexed from its first page.
-/

namespace MixUpOS.Kernel.Memory

open AK Library

def pageSize : Nat := 4096

def zoneChunkSize : Nat := pageSize / 2

def maxOrder : Nat := 12

/-- Conversion of a wider integer to `ChunkIndex`, which is an `i16`.  Chunk
indices are integers here, and `-1` ends a freelist. -/
def toChunkIndex (value : Int) : Int := value.bmod (2 ^ 16)

/-- `2u << order`: the number of chunks of a block. -/
def blockSize (order : Nat) : Nat := (2 <<< order) % 2 ^ 32

/-- The freelist view of a page entry. -/
abbrev FreelistEntry := Link Int

structure BuddyBucket where
  order : Nat
  freelist : Int
  bitmap : List Bool
deriving DecidableEq, Repr

namespace BuddyBucket

def buddyBitIndex (bucket : BuddyBucket) (index : Int) : Nat :=
  (index / 2 / 2 ^ (1 + bucket.order) % 2 ^ 64).toNat

def getBuddyBit (bucket : BuddyBucket) (index : Int) : Option Bool :=
  bucket.bitmap[bucket.buddyBitIndex index]?

def setBuddyBit (bucket : BuddyBucket) (index : Int) (value : Bool) : Option BuddyBucket := do
  verify (bucket.buddyBitIndex index < bucket.bitmap.length)
  return { bucket with
    bitmap := bucket.bitmap.set (bucket.buddyBitIndex index) value }

end BuddyBucket

structure PhysicalZone where
  baseAddress : Nat
  pageCount : Nat
  usedChunks : Nat
  buckets : Nat → BuddyBucket
  entries : Int → FreelistEntry

namespace PhysicalZone

variable (zone : PhysicalZone)

def available : Nat := zone.pageCount - zone.usedChunks / 2

def isEmpty : Bool := zone.available == 0

def contains (paddr : Nat) : Bool :=
  zone.baseAddress ≤ paddr && paddr < zone.baseAddress + zone.pageCount * pageSize

/-- The page, counted from the zone's base, whose entry `get_freelist_entry`
looks up: the chunk address divided by the page size. -/
def entryOf (index : Int) : Int := index * zoneChunkSize / pageSize

def getFreelistEntry (index : Int) : FreelistEntry := zone.entries (entryOf index)

def setFreelistEntry (index : Int) (entry : FreelistEntry) : PhysicalZone :=
  { zone with entries := Function.update zone.entries (entryOf index) entry }

def setNextIndex (index value : Int) : PhysicalZone :=
  { zone with
    entries := IntrusiveList.setNext entryOf zone.entries index value }

def setPrevIndex (index value : Int) : PhysicalZone :=
  { zone with
    entries := IntrusiveList.setPrev entryOf zone.entries index value }

def setBucket (order : Nat) (bucket : BuddyBucket) : PhysicalZone :=
  { zone with buckets := Function.update zone.buckets order bucket }

def setFreelist (order : Nat) (index : Int) : PhysicalZone :=
  zone.setBucket order { zone.buckets order with freelist := index }

def setBuddyBit (zone : PhysicalZone) (order : Nat) (index : Int)
    (value : Bool) : Option PhysicalZone := do
  let bucket ← (zone.buckets order).setBuddyBit index value
  return zone.setBucket order bucket

/-- `remove_from_freelist(m_buckets[order], index)`. -/
def removeFromFreelist (order : Nat) (index : Int) : Option PhysicalZone := do
  verify ((zone.getFreelistEntry index).prevIndex ≥ -1)
  verify ((zone.getFreelistEntry index).nextIndex ≥ -1)
  let zone :=
    if (zone.getFreelistEntry index).prevIndex ≠ -1 then
      zone.setNextIndex (zone.getFreelistEntry index).prevIndex
        (zone.getFreelistEntry index).nextIndex
    else zone
  let zone :=
    if (zone.getFreelistEntry index).nextIndex ≠ -1 then
      zone.setPrevIndex (zone.getFreelistEntry index).nextIndex
        (zone.getFreelistEntry index).prevIndex
    else zone
  let zone :=
    if (zone.buckets order).freelist = index then
      zone.setFreelist order (zone.getFreelistEntry index).nextIndex
    else zone
  return zone.setFreelistEntry index ⟨-1, -1⟩

/-- The inner `none` is the empty `Optional` of a request that cannot be
satisfied. -/
def allocateBlockImpl (zone : PhysicalZone) (order : Nat) : Option (PhysicalZone × Option Int) :=
  if maxOrder < order then some (zone, none)
  else if (zone.buckets order).freelist = -1 then do
    let (zone, buddies) ← allocateBlockImpl zone (order + 1)
    match buddies with
    | none => return (zone, none)
    | some index =>
      let zone := zone.setFreelistEntry index ⟨-1, -1⟩
      let zone := zone.setFreelist order index
      let bit ← (zone.buckets order).getBuddyBit index
      verify (bit == false)
      let zone ← zone.setBuddyBit order index true
      return (zone, some (toChunkIndex (index + blockSize order)))
  else do
    let index := (zone.buckets order).freelist
    let next := (zone.getFreelistEntry index).nextIndex
    let zone := zone.setFreelist order next
    let zone := if next ≠ -1 then zone.setPrevIndex next (-1) else zone
    let bit ← (zone.buckets order).getBuddyBit index
    verify (bit == true)
    let zone ← zone.setBuddyBit order index false
    return (zone, some index)
termination_by maxOrder + 1 - order

def allocateBlock (order : Nat) : Option (PhysicalZone × Option Nat) := do
  let (zone, result) ← zone.allocateBlockImpl order
  match result with
  | none => return (zone, none)
  | some index =>
    let zone := { zone with
      usedChunks := zone.usedChunks + blockSize order }
    verify (index % 2 == 0)
    return (zone, some (zone.baseAddress + index * zoneChunkSize : Int).toNat)

/-- There is no bucket above `maxOrder`; reaching one would read past
`m_buckets`, which counts as a failure here. -/
def deallocateBlockImpl (zone : PhysicalZone) (index : Int) (order : Nat) : Option PhysicalZone :=
  if maxOrder < order then none
  else do
    let bucket := zone.buckets order
    let bit ← bucket.getBuddyBit index
    if bit then
      let buddyBitIndex := bucket.buddyBitIndex index
      let buddyBaseIndex := toChunkIndex ((buddyBitIndex <<< 1 <<< (1 + order) : Nat) : Int)
      let zone ← zone.removeFromFreelist order (if index = buddyBaseIndex
          then toChunkIndex (buddyBaseIndex + blockSize order)
          else buddyBaseIndex)
      let zone ← zone.setBuddyBit order index false
      deallocateBlockImpl zone buddyBaseIndex (order + 1)
    else
      let zone :=
        if (zone.buckets order).freelist ≠ -1 then
          zone.setPrevIndex (zone.buckets order).freelist index
        else zone
      let zone := zone.setFreelistEntry index ⟨(zone.buckets order).freelist, -1⟩
      let zone := zone.setFreelist order index
      zone.setBuddyBit order index true
termination_by maxOrder + 1 - order

def deallocateBlock (address order : Nat) : Option PhysicalZone := do
  let index := toChunkIndex ((address - zone.baseAddress : Int) % 2 ^ 64 / zoneChunkSize)
  let zone ← zone.deallocateBlockImpl index order
  return { zone with usedChunks := zone.usedChunks - blockSize order }

def emptyBucket (chunkCount order : Nat) : BuddyBucket where
  order := order
  freelist := -1
  bitmap := List.replicate (ceilDiv (chunkCount / blockSize order) 2) false

/-- One round of the loop that puts the initial blocks on a freelist.  The
state also carries the running `offset`. -/
def addInitialBlock (firstOrder : Nat) (state : PhysicalZone × Nat)
    (round : Nat) : Option (PhysicalZone × Nat) := do
  let (zone, offset) := state
  let index := toChunkIndex ((offset + round : Nat) : Int)
  let zone ← zone.setBuddyBit firstOrder index true
  let zone := zone.setFreelistEntry index ⟨(zone.buckets firstOrder).freelist, -1⟩
  let zone := zone.setFreelist firstOrder index
  return (zone, offset + blockSize firstOrder)

/-- The constructor.  `entries` are the page entries as they happen to be;
an allocated page keeps other data in the same place. -/
def create (entries : Int → FreelistEntry) (baseAddress pageCount : Nat) : Option PhysicalZone := do
  let chunkCount := pageCount * 2
  let zone : PhysicalZone :=
    { baseAddress := baseAddress
      pageCount := pageCount
      usedChunks := 0
      buckets := emptyBucket chunkCount
      entries := entries }
  let firstOrder := countTrailingZeroes 64 pageCount
  let initialBundleCount := chunkCount / blockSize firstOrder
  let (zone, _) ← (List.range initialBundleCount).foldlM (addInitialBlock firstOrder) (zone, 0)
  return zone

end PhysicalZone

end MixUpOS.Kernel.Memory
