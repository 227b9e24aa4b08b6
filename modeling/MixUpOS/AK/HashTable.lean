import MixUpOS.AK.Builtins
import MixUpOS.AK.Error
import MixUpOS.Library.Circular
import MixUpOS.Library.LinkedSequences

/-!
# Hash tables

A set with closed hashing and robin-hood probing.  With `IsOrdered` the used
buckets are also threaded on a list in the order of their insertion.

The buckets are those of the array `m_buckets` and the local variable
`bucket_to_move` of `write_value`.  What a bucket of an ordered table keeps in
`previous` and `next` is kept in `links`, beside `head` and `tail` of
`m_collection_data`; an unordered table has neither.  `size_t` has 64 bits and
`unsigned` has 32.

`none` is a failed `VERIFY`, a read of a slot without an object, or a loop
that has gone around the table without an end.
-/

namespace MixUpOS.AK

open Library Library.Circular

inductive HashSetResult where
  | insertedNewEntry
  | replacedExistingEntry
  | keptExistingEntry
deriving DecidableEq, Repr

inductive HashSetExistingEntryBehavior where
  | keep
  | replace
deriving DecidableEq, Repr

/-- A value of `size_t`. -/
def sizeT (value : Nat) : Nat := value % 2 ^ 64

/-- A value of `unsigned`. -/
def unsigned (value : Nat) : Nat := value % 2 ^ 32

/-- What a hash table is instantiated with, and what the allocator answers:
`TraitsForT::hash`, `TraitsForT::equals`, `IsOrdered`, `sizeof(BucketType)` and
`kmalloc_good_size`. -/
structure HashTraits (T : Type) where
  hash : T → UInt32
  equals : T → T → Bool
  isOrdered : Bool
  bucketSize : Nat
  goodSize : Nat → Nat

inductive BucketPointer where
  | index (index : Nat)
  | bucketToMove
deriving DecidableEq, Repr

/-- `BucketState` doubles as a probe length: 0 is free, 255 is
`CalculateLength`, and any other value is the probe length and one. -/
structure Bucket (T : Type) where
  state : Nat
  slot : Option T
deriving DecidableEq, Repr

namespace Bucket

variable {T : Type}

def isFree (bucket : Bucket T) : Bool := bucket.state == 0

end Bucket

structure HashTable (T : Type) where
  hasBuckets : Bool
  buckets : BucketPointer → Bucket T
  links : Links BucketPointer
  size : Nat
  capacity : Nat

namespace HashTable

variable {T : Type} (traits : HashTraits T) (table : HashTable T)

def empty : HashTable T where
  hasBuckets := false
  buckets := fun _ => ⟨0, none⟩
  links := ⟨fun _ => none, fun _ => none, none, none⟩
  size := 0
  capacity := 0

/-- `m_buckets[index]`. -/
def bucket (index : Nat) : Bucket T := table.buckets (.index index)

def setBucket (pointer : BucketPointer) (value : Bucket T) : HashTable T :=
  { table with buckets := Function.update table.buckets pointer value }

def setState (pointer : BucketPointer) (state : Nat) : HashTable T :=
  table.setBucket pointer { table.buckets pointer with state := state }

def setLinks (links : Links BucketPointer) : HashTable T := { table with links := links }

/-- `*target = move(*source)`. -/
def moveBucket (source target : BucketPointer) : HashTable T :=
  (table.setBucket target (table.buckets source)).setLinks
    ((table.links.setPrevious target (table.links.previous source)).setNext
      target (table.links.next source))

/-- `swap(*first, *second)`. -/
def swapBuckets (first second : BucketPointer) : HashTable T :=
  ((table.setBucket first (table.buckets second)).setBucket second (table.buckets first)).setLinks
    { table.links with
      previous := fun pointer => table.links.previous (if pointer = first then second
          else if pointer = second then first else pointer)
      next := fun pointer => table.links.next (if pointer = first then second
          else if pointer = second then first else pointer) }

def bucketStateForProbeLength (probeLength : Nat) : Nat :=
  if 253 < probeLength then 255 else probeLength + 1

/-- `hash(value) % m_capacity`. -/
def idealIndex (capacity : Nat) (value : T) : Nat := (traits.hash value).toNat % capacity

def usedBucketProbeLength (index : Nat) : Option Nat := do
  verify !(table.bucket index).isFree
  if (table.bucket index).state = 255 then
    let value ← (table.bucket index).slot
    let idealBucketIndex := idealIndex traits table.capacity value
    return if index < idealBucketIndex then table.capacity + index - idealBucketIndex
      else index - idealBucketIndex
  else return (table.bucket index).state - 1

section

variable (links : Links BucketPointer)

def updateCollectionForNewBucket (bucket : BucketPointer) : Links BucketPointer :=
  let links :=
    match links.head, links.tail with
    | none, _ => links.setHead (some bucket)
    | some _, none => links
    | some _, some tail =>
      (links.setPrevious bucket (some tail)).setNext tail (some bucket)
  links.setTail (some bucket)

/-- The ends after two buckets were swapped. -/
def swappedEnd (first second : BucketPointer) : Option BucketPointer → Option BucketPointer
  | none => none
  | some pointer =>
    if pointer = first then some second
    else if pointer = second then some first else some pointer

/-- The previous bucket of the left one is made to point to it. -/
def relinkLeftPrevious (left right : BucketPointer) : Links BucketPointer :=
  match links.previous left with
  | none => links
  | some previous =>
    if previous = left then
      (links.setPrevious left (some right)).setNext right (some left)
    else links.setNext previous (some left)

/-- The next bucket of the left one is made to point to it. -/
def relinkLeftNext (left right : BucketPointer) : Links BucketPointer :=
  match links.next left with
  | none => links
  | some next =>
    if next = left then
      (links.setNext left (some right)).setPrevious right (some left)
    else links.setPrevious next (some left)

def relinkRightPrevious (left right : BucketPointer) : Links BucketPointer :=
  match links.previous right with
  | none => links
  | some previous =>
    if previous ≠ left then links.setNext previous (some right) else links

def relinkRightNext (left right : BucketPointer) : Links BucketPointer :=
  match links.next right with
  | none => links
  | some next =>
    if next ≠ left then links.setPrevious next (some right) else links

def updateCollectionForSwappedBuckets (left right : BucketPointer) : Links BucketPointer :=
  let links := links.setHead (swappedEnd left right links.head)
  let links := links.setTail (swappedEnd left right links.tail)
  let links := relinkLeftPrevious links left right
  let links := relinkLeftNext links left right
  let links := relinkRightPrevious links left right
  relinkRightNext links left right

/-- The next bucket, or the head, follows a bucket that is taken out. -/
def unlinkForward (bucket : BucketPointer) : Links BucketPointer :=
  match links.previous bucket with
  | some previous => links.setNext previous (links.next bucket)
  | none => links.setHead (links.next bucket)

def unlinkBackward (bucket : BucketPointer) : Links BucketPointer :=
  match links.next bucket with
  | some next => links.setPrevious next (links.previous bucket)
  | none => links.setTail (links.previous bucket)

def clearLinks (bucket : BucketPointer) : Links BucketPointer :=
  (links.setPrevious bucket none).setNext bucket none

/-- A deleted bucket is taken out of the list. -/
def unlinkBucket (bucket : BucketPointer) : Links BucketPointer :=
  let links := unlinkForward links bucket
  let links := unlinkBackward links bucket
  clearLinks links bucket

def attachForward (bucket : BucketPointer) : Links BucketPointer :=
  match links.previous bucket with
  | some previous => links.setNext previous (some bucket)
  | none => links.setHead (some bucket)

def attachBackward (bucket : BucketPointer) : Links BucketPointer :=
  match links.next bucket with
  | some next => links.setPrevious next (some bucket)
  | none => links.setTail (some bucket)

def updateBucketNeighbors (bucket : BucketPointer) : Links BucketPointer :=
  attachBackward (attachForward links bucket) bucket

end

/-- A change that only an ordered table makes. -/
def ifOrdered (change : Links BucketPointer → Links BucketPointer) : HashTable T :=
  if traits.isOrdered then table.setLinks (change table.links) else table

def lookupLoop (table : HashTable T) (predicate : T → Bool) : Nat → Nat → Option (Option Nat)
  | 0, _ => none
  | fuel + 1, hash =>
    if (table.bucket hash).isFree then some none
    else do
      let entry ← (table.bucket hash).slot
      if predicate entry then return some hash
      else
        let following := unsigned (hash + 1)
        lookupLoop table predicate fuel (if following = table.capacity then 0 else following)

/-- The index of the bucket found. -/
def lookupWithHash (hash : UInt32) (predicate : T → Bool) : Option (Option Nat) :=
  if table.size = 0 then some none
  else lookupLoop table predicate table.capacity (hash.toNat % table.capacity)

def find (value : T) : Option (Option Nat) :=
  if table.size = 0 then some none
  else table.lookupWithHash (traits.hash value) fun entry => traits.equals entry value

def contains (value : T) : Option Bool := (table.find traits value).map Option.isSome

/-- A new entry is written to the bucket of the array. -/
def writeBucket (index : Nat) (value : T) (probeLength : Nat) : HashTable T :=
  table.setBucket (.index index) ⟨bucketStateForProbeLength probeLength, some value⟩

/-- The bucket in hand comes to rest in a free bucket. -/
def settleBucket (index probeLength : Nat) : HashTable T :=
  let table := table.moveBucket .bucketToMove (.index index)
  let table := table.setState (.index index) (bucketStateForProbeLength probeLength)
  table.ifOrdered traits fun links =>
    updateCollectionForSwappedBuckets links .bucketToMove (.index index)

/-- The bucket in hand is exchanged for a richer one. -/
def exchangeBucket (index probeLength : Nat) : HashTable T :=
  let table := table.swapBuckets .bucketToMove (.index index)
  let table := table.setState (.index index) (bucketStateForProbeLength probeLength)
  table.ifOrdered traits fun links =>
    updateCollectionForSwappedBuckets links .bucketToMove (.index index)

/-- The inner loop of `write_value`, which finds a place for the bucket in
hand. -/
def displaceLoop (traits : HashTraits T) : Nat → HashTable T → Nat → Nat → Option (HashTable T)
  | 0, _, _, _ => none
  | fuel + 1, table, bucketIndex, probeLength =>
    let bucketIndex := next table.capacity bucketIndex
    let probeLength := probeLength + 1
    if (table.bucket bucketIndex).isFree then
      some (settleBucket traits table bucketIndex probeLength)
    else do
      let targetProbeLength ← usedBucketProbeLength traits table bucketIndex
      if targetProbeLength < probeLength then
        displaceLoop traits fuel (exchangeBucket traits table bucketIndex probeLength) bucketIndex
          targetProbeLength
      else displaceLoop traits fuel table bucketIndex probeLength

/-- A new entry in a free bucket. -/
def writeFree (value : T) (index probeLength : Nat) : HashTable T :=
  let table := table.writeBucket index value probeLength
  let table := table.ifOrdered traits fun links =>
    updateCollectionForNewBucket links (.index index)
  { table with size := table.size + 1 }

/-- A new entry takes the place of a richer one, which is then in hand. -/
def steal (value : T) (index probeLength : Nat) : HashTable T :=
  let table := table.moveBucket (.index index) .bucketToMove
  let table := table.ifOrdered traits fun links =>
    updateCollectionForSwappedBuckets links (.index index) .bucketToMove
  let table := table.writeBucket index value probeLength
  let table := table.ifOrdered traits fun links =>
    updateCollectionForNewBucket (links.setNext (.index index) none) (.index index)
  { table with size := table.size + 1 }

def writeExisting (value : T) (behavior : HashSetExistingEntryBehavior) (index : Nat) :
    HashSetResult × HashTable T :=
  match behavior with
  | .replace =>
    (.replacedExistingEntry, table.setBucket (.index index)
        { table.bucket index with slot := some value })
  | .keep => (.keptExistingEntry, table)

def writeValueLoop (traits : HashTraits T) (value : T) (behavior : HashSetExistingEntryBehavior) :
    Nat → HashTable T → Nat → Nat → Option (HashSetResult × HashTable T)
  | 0, _, _, _ => none
  | fuel + 1, table, bucketIndex, probeLength =>
    if (table.bucket bucketIndex).isFree then
      some (.insertedNewEntry, writeFree traits table value bucketIndex probeLength)
    else do
      let entry ← (table.bucket bucketIndex).slot
      if traits.equals entry value then
        return writeExisting table value behavior bucketIndex
      else
        let targetProbeLength ← usedBucketProbeLength traits table bucketIndex
        if targetProbeLength < probeLength then
          let table := steal traits table value bucketIndex probeLength
          let table ← displaceLoop traits table.capacity table bucketIndex targetProbeLength
          return (.insertedNewEntry, table)
        else
          writeValueLoop traits value behavior fuel table
            (next table.capacity bucketIndex) (probeLength + 1)

def writeValue (value : T) (behavior : HashSetExistingEntryBehavior) :
    Option (HashSetResult × HashTable T) :=
  writeValueLoop traits value behavior table.capacity table
    (idealIndex traits table.capacity value) 0

/-- The bucket behind the gap is moved into it. -/
def shiftBucket (source target probeLength : Nat) : HashTable T :=
  let table := table.moveBucket (.index source) (.index target)
  let table := table.ifOrdered traits fun links =>
    clearLinks links (.index source)
  let table := table.setState (.index target) (bucketStateForProbeLength (probeLength - 1))
  table.ifOrdered traits fun links =>
    updateBucketNeighbors links (.index target)

def shiftLoop (traits : HashTraits T) : Nat → HashTable T → Nat → Nat → Option (HashTable T)
  | 0, _, _, _ => none
  | fuel + 1, table, shiftToIndex, shiftFromIndex =>
    let shiftFromIndex := next table.capacity shiftFromIndex
    if (table.bucket shiftFromIndex).isFree then
      some (table.setState (.index shiftToIndex) 0)
    else do
      let shiftFromProbeLength ← usedBucketProbeLength traits table shiftFromIndex
      if shiftFromProbeLength = 0 then
        return table.setState (.index shiftToIndex) 0
      else
        shiftLoop traits fuel (shiftBucket traits table shiftFromIndex shiftToIndex
            shiftFromProbeLength)
          (next table.capacity shiftToIndex) shiftFromIndex

/-- The entry is destroyed and its bucket is taken out of the list. -/
def destroyBucket (index : Nat) : HashTable T :=
  let table := table.setBucket (.index index) { table.bucket index with slot := none }
  let table := table.ifOrdered traits fun links =>
    unlinkBucket links (.index index)
  { table with size := table.size - 1 }

def deleteBucket (index : Nat) : Option (HashTable T) := do
  verify !(table.bucket index).isFree
  let table := destroyBucket traits table index
  verify (decide (index < table.capacity))
  shiftLoop traits table.capacity table index index

/-- The buckets in the order of the iterator. -/
def iteration : Option (List BucketPointer) :=
  if traits.isOrdered then
    Links.walk table.links.next table.capacity table.links.head
  else some (((List.range table.capacity).filter fun index =>
    !(table.bucket index).isFree).map .index)

/-- The values that an iteration over the given buckets yields. -/
def valuesOf (pointers : List BucketPointer) : Option (List T) :=
  pointers.mapM fun pointer => (table.buckets pointer).slot

def values : Option (List T) := do
  let pointers ← table.iteration traits
  table.valuesOf pointers

/-- The values in the order of the reverse iterator of an ordered table. -/
def valuesInReverse : Option (List T) := do
  let pointers ← Links.walk table.links.previous table.capacity table.links.tail
  table.valuesOf pointers

def shouldGrow : Bool := decide (sizeT (table.capacity * 80) ≤ sizeT ((table.size + 1) * 100))

def sizeInBytes (capacity : Nat) : Nat := sizeT (traits.bucketSize * capacity)

/-- The capacity that `try_rehash` settles on. -/
def rehashedCapacity (newCapacity : Nat) : Nat := traits.goodSize (sizeInBytes traits
    (max newCapacity (sizeT (table.capacity + 8)))) / traits.bucketSize

/-- Empty buckets in memory from `kcalloc`. -/
def allocateBuckets (size newCapacity : Nat) : HashTable T where
  hasBuckets := true
  buckets := fun _ => ⟨0, none⟩
  links := ⟨fun _ => none, fun _ => none, none, none⟩
  size := size
  capacity := newCapacity

/-- The old entries are written to the new buckets. -/
def writeAll (traits : HashTraits T) : List T → HashTable T → Option (HashTable T)
  | [], table => some table
  | value :: rest, table => do
      let written ← writeValue traits table value .keep
      writeAll traits rest written.2

/-- `try_rehash`; `granted` tells whether `kcalloc` returns memory. -/
def tryRehash (newCapacity : Nat) (granted : Bool) : Option (ErrorOr Unit × HashTable T) := do
  let newCapacity := rehashedCapacity traits table newCapacity
  verify (decide (table.size ≤ newCapacity))
  if !granted then return (.error .ENOMEM, table)
  else if !table.hasBuckets then
    return (.ok (), allocateBuckets table.size newCapacity)
  else
    let entries ← table.values traits
    let rehashed ← writeAll traits entries (allocateBuckets 0 newCapacity)
    return (.ok (), rehashed)

def growIfNeeded (granted : Bool) : Option (ErrorOr Unit × HashTable T) :=
  if table.shouldGrow then
    table.tryRehash traits (sizeT (table.capacity * 160) / 100) granted
  else some (.ok (), table)

def trySet (value : T) (behavior : HashSetExistingEntryBehavior) (granted : Bool) :
    Option (ErrorOr HashSetResult × HashTable T) := do
  let grown ← growIfNeeded traits table granted
  match grown with
  | (.error code, table) => return (.error code, table)
  | (.ok _, table) =>
    let written ← writeValue traits table value behavior
    return (.ok written.1, written.2)

/-- The capacity that `try_ensure_capacity` needs for that many entries. -/
def requiredCapacity (capacity : Nat) : Nat := sizeT (sizeT (capacity * 100) / 80 + 1)

def tryEnsureCapacity (capacity : Nat) (granted : Bool) : Option (ErrorOr Unit × HashTable T) :=
  if requiredCapacity capacity ≤ table.capacity then some (.ok (), table)
  else table.tryRehash traits (requiredCapacity capacity) granted

def remove (value : T) : Option (Bool × HashTable T) := do
  let found ← table.find traits value
  match found with
  | none => return (false, table)
  | some index =>
    let table ← table.deleteBucket traits index
    return (true, table)

def removeAllMatchingLoop (traits : HashTraits T) (predicate : T → Bool) :
    Nat → HashTable T → Nat → Bool → Option (Bool × HashTable T)
  | 0, _, _, _ => none
  | fuel + 1, table, index, hasRemovedAnything =>
    if table.capacity ≤ index then some (hasRemovedAnything, table)
    else if (table.bucket index).isFree then
      removeAllMatchingLoop traits predicate fuel table (index + 1) hasRemovedAnything
    else do
      let entry ← (table.bucket index).slot
      if predicate entry then
        let table ← table.deleteBucket traits index
        -- A bucket that was shifted here is looked at again.
        removeAllMatchingLoop traits predicate fuel table
          (if (table.bucket index).isFree then index + 1 else index) true
      else
        removeAllMatchingLoop traits predicate fuel table (index + 1) hasRemovedAnything

def removeAllMatching (predicate : T → Bool) : Option (Bool × HashTable T) :=
  removeAllMatchingLoop traits predicate (table.capacity + table.size + 1) table 0 false

/-- The entry of an end of the list, which is deleted. -/
def takeEnd (endOfList : Option BucketPointer) : Option (T × HashTable T) := do
  verify (decide (table.size ≠ 0))
  match endOfList with
  | some (.index index) =>
    let element ← (table.bucket index).slot
    let table ← table.deleteBucket traits index
    return (element, table)
  | _ => none

def takeLast : Option (T × HashTable T) := table.takeEnd traits table.links.tail

def takeFirst : Option (T × HashTable T) := table.takeEnd traits table.links.head

def clear (_table : HashTable T) : HashTable T := empty

end HashTable

end MixUpOS.AK
