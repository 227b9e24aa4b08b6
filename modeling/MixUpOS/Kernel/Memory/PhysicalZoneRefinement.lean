import MixUpOS.Kernel.Memory.PhysicalZone
import MixUpOS.Library.BuddySystem
import Mathlib.Tactic.Ring
import Mathlib.Tactic.Positivity

/-!
# The physical zone refines the buddy system

A zone of `2 ^ top` pages represents the buddy system over its pages: the
freelist of an order links the first chunks of the free blocks of that order,
and the bit of a pair says that one of its two blocks is free.
-/

namespace MixUpOS.Kernel.Memory

open AK Library Library.Buddy IntrusiveList Nat

def chunkOf (order number : Nat) : Int := ((number * (2 * 2 ^ order) : Nat) : Int)

/-- The number of buddy pairs of an order, a block without a buddy counting
as a pair. -/
def pairCount (top order : Nat) : Nat := ceilDiv (2 ^ (top - order)) 2

/-- One of the two blocks of the pair is in the list. -/
def pairBit (list : List Nat) (pair : Nat) : Bool := list.any fun number => number / 2 == pair

namespace PhysicalZone

/-- The bitmap of a bucket holds the pair bits of the given free list. -/
structure Tracks (top order : Nat) (list : List Nat) (bucket : BuddyBucket) : Prop where
  bucketOrder : bucket.order = order
  bit : ∀ pair, bucket.bitmap[pair]? =
    if pair < pairCount top order then some (pairBit list pair) else none

structure Represents (top : Nat) (zone : PhysicalZone) (free : FreeLists) : Prop where
  pageCount : zone.pageCount = 2 ^ top
  freelist : ∀ order, order ≤ maxOrder → IsList entryOf (-1) zone.entries
      (zone.buckets order).freelist ((free order).map (chunkOf order))
  tracks : ∀ order, order ≤ top → Tracks top order (free order) (zone.buckets order)

/-- The fields that the block lists do not concern. -/
structure SameAccounting (zone other : PhysicalZone) : Prop where
  baseAddress : other.baseAddress = zone.baseAddress
  usedChunks : other.usedChunks = zone.usedChunks

theorem blockSize_eq (bound : order ≤ maxOrder) : blockSize order = 2 * 2 ^ order := by
  have small : 2 ^ order ≤ 2 ^ 12 := Nat.pow_le_pow_right (by omega) bound
  rw [blockSize, Nat.shiftLeft_eq, Nat.mod_eq_of_lt (by omega)]

theorem entryOf_eq (index : Int) : entryOf index = index / 2 := by
  have chunks : (zoneChunkSize : Int) = 2048 := rfl
  have page : (pageSize : Int) = 4096 := rfl
  rw [entryOf, chunks, page]
  omega

theorem entryOf_chunkOf (order number : Nat) :
    entryOf (chunkOf order number) = ((number * 2 ^ order : Nat) : Int) := by
  have double : number * (2 * 2 ^ order) = 2 * (number * 2 ^ order) := by ring
  rw [entryOf_eq, chunkOf]
  omega

theorem block_fits (orderBound : order ≤ top) (numberBound : number < 2 ^ (top - order)) :
    number * (2 * 2 ^ order) + 2 * 2 ^ order ≤ 2 * 2 ^ top := by
  have scaled : (number + 1) * 2 ^ order ≤ 2 ^ (top - order) * 2 ^ order :=
    mul_le_mul_right _ numberBound
  rw [← Nat.pow_add, Nat.sub_add_cancel orderBound] at scaled
  calc
    number * (2 * 2 ^ order) + 2 * 2 ^ order = 2 * ((number + 1) * 2 ^ order) := by ring
    _ ≤ 2 * 2 ^ top := mul_le_mul_left 2 scaled

theorem zone_chunks_le (topBound : top ≤ maxOrder) : 2 * 2 ^ top ≤ 8192 := by
  have small : 2 ^ top ≤ 2 ^ 12 := Nat.pow_le_pow_right (by omega) topBound
  omega

theorem chunkOf_lt (topBound : top ≤ maxOrder) (orderBound : order ≤ top)
    (numberBound : number < 2 ^ (top - order)) : chunkOf order number < 8192 := by
  have fits := block_fits orderBound numberBound
  have limit := zone_chunks_le topBound
  have pos := Nat.two_pow_pos order
  unfold chunkOf
  omega

theorem chunkOf_ne_null (order number : Nat) : chunkOf order number ≠ -1 := by
  unfold chunkOf
  omega

theorem chunkOf_injective (equality : chunkOf order first = chunkOf order second) :
    first = second := by
  have products : first * (2 * 2 ^ order) = second * (2 * 2 ^ order) := by
    unfold chunkOf at equality
    omega
  exact eq_of_mul_eq_mul_right (by positivity) products

theorem toChunkIndex_chunkOf (topBound : top ≤ maxOrder)
    (orderBound : order ≤ top) (numberBound : number < 2 ^ (top - order)) :
    toChunkIndex (chunkOf order number) = chunkOf order number := by
  have bound := chunkOf_lt topBound orderBound numberBound
  have nonneg : 0 ≤ chunkOf order number := by
    unfold chunkOf
    omega
  exact Int.bmod_eq_of_le (by omega) (by omega)

theorem chunkOf_even (order number : Nat) :
    chunkOf order (2 * number) = chunkOf (order + 1) number := by
  unfold chunkOf
  push_cast
  ring

theorem chunkOf_odd (order number : Nat) : chunkOf order (2 * number + 1) =
      chunkOf (order + 1) number + ((2 * 2 ^ order : Nat) : Int) := by
  unfold chunkOf
  push_cast
  ring

theorem buddyBitIndex_chunkOf {bucket : BuddyBucket}
    (bucketOrder : bucket.order = order) (topBound : top ≤ maxOrder)
    (orderBound : order ≤ top) (numberBound : number < 2 ^ (top - order)) :
    bucket.buddyBitIndex (chunkOf order number) = number / 2 := by
  have entry := entryOf_chunkOf order number
  have fits := block_fits orderBound numberBound
  have limit := zone_chunks_le topBound
  have half : number * 2 ^ order / 2 ^ (1 + order) = number / 2 := by
    rw [Nat.pow_add, Nat.mul_comm 2, ← Nat.div_div_eq_div_mul, first_unit_div]
  have numberSmall : number ≤ number * (2 * 2 ^ order) := Nat.le_mul_of_pos_right _ (by positivity)
  rw [entryOf_eq] at entry
  rw [BuddyBucket.buddyBitIndex, bucketOrder, entry]
  have cast : ((number * 2 ^ order : Nat) : Int) / 2 ^ (1 + order) =
      ((number / 2 : Nat) : Int) := by
    rw [← half]
    rfl
  omega

theorem half_lt_pairCount (numberBound : number < 2 ^ (top - order)) :
    number / 2 < pairCount top order := by
  unfold pairCount ceilDiv
  split <;> omega

section

variable {list : List Nat} {pair : Nat}

theorem pairBit_eq_true_iff : pairBit list pair = true ↔ ∃ number ∈ list, number / 2 = pair := by
  simp [pairBit]

theorem pairBit_half_eq_true_iff :
    pairBit list (number / 2) = true ↔ number ∈ list ∨ buddy number ∈ list := by
  rw [pairBit_eq_true_iff]
  constructor
  · rintro ⟨found, member, sameHalf⟩
    rcases (half_eq_iff number found).mp sameHalf with rfl | rfl
    · exact .inl member
    · exact .inr member
  · rintro (member | member)
    · exact ⟨number, member, rfl⟩
    · exact ⟨_, member, (half_eq_iff number _).mpr (.inr rfl)⟩

theorem pairBit_cons : pairBit (number :: list) pair =
      if pair = number / 2 then true else pairBit list pair := by
  by_cases same : pair = number / 2
  · simp [pairBit, same]
  · have reverse : ¬number / 2 = pair := fun equality => same equality.symm
    simp [pairBit, same, reverse]

theorem pairBit_erase (nodup : list.Nodup) (buddyAbsent : buddy number ∉ list) :
    pairBit (list.erase number) pair =
      if pair = number / 2 then false else pairBit list pair := by
  rw [Bool.eq_iff_iff, pairBit_eq_true_iff]
  by_cases same : pair = number / 2
  · simp only [same, if_true, Bool.false_eq_true, iff_false]
    rintro ⟨found, member, sameHalf⟩
    rw [nodup.mem_erase_iff] at member
    rcases (half_eq_iff number found).mp sameHalf with isNumber | isBuddy
    · exact member.1 isNumber
    · exact buddyAbsent (isBuddy ▸ member.2)
  · rw [if_neg same, pairBit_eq_true_iff]
    constructor
    · rintro ⟨found, member, sameHalf⟩
      exact ⟨found, (nodup.mem_erase_iff.mp member).2, sameHalf⟩
    · rintro ⟨found, member, sameHalf⟩
      refine ⟨found, nodup.mem_erase_iff.mpr ⟨?_, member⟩, sameHalf⟩
      intro equality
      exact same (sameHalf.symm.trans (by rw [equality]))

end

section

variable {list : List Nat}

section

variable (tracks : Tracks top order list bucket)

include tracks

theorem Tracks.withFreelist (head : Int) : Tracks top order list { bucket with freelist := head } :=
  ⟨tracks.bucketOrder, tracks.bit⟩

theorem Tracks.getBuddyBit (topBound : top ≤ maxOrder) (orderBound : order ≤ top)
    (numberBound : number < 2 ^ (top - order)) :
    bucket.getBuddyBit (chunkOf order number) = some (pairBit list (number / 2)) := by
  rw [BuddyBucket.getBuddyBit,
    buddyBitIndex_chunkOf tracks.bucketOrder topBound orderBound numberBound,
    tracks.bit, if_pos (half_lt_pairCount numberBound)]

theorem Tracks.setBuddyBit (topBound : top ≤ maxOrder) (orderBound : order ≤ top)
    (numberBound : number < 2 ^ (top - order)) (value : Bool)
    {changed : List Nat}
    (changedBit : ∀ pair, pairBit changed pair =
      if pair = number / 2 then value else pairBit list pair) :
    ∃ result, bucket.setBuddyBit (chunkOf order number) value = some result ∧
      result.freelist = bucket.freelist ∧
      Tracks top order changed result := by
  have index := buddyBitIndex_chunkOf tracks.bucketOrder topBound orderBound numberBound
  have inRange : number / 2 < bucket.bitmap.length := by
    have present := tracks.bit (number / 2)
    rw [if_pos (half_lt_pairCount numberBound)] at present
    exact (List.getElem?_eq_some_iff.mp present).1
  refine ⟨{ bucket with bitmap := bucket.bitmap.set (number / 2) value },
    ?_, rfl, tracks.bucketOrder, ?_⟩
  · simp [BuddyBucket.setBuddyBit, index, inRange]
  intro pair
  rw [List.getElem?_set, changedBit]
  by_cases same : number / 2 = pair
  · subst same
    simp [inRange, half_lt_pairCount numberBound]
  · have reverse : ¬pair = number / 2 := fun equality => same equality.symm
    rw [if_neg same, if_neg reverse, tracks.bit]

end

end

section

variable {order : Nat}
variable {zone : PhysicalZone}

theorem entryOf_ne_of_free (invariant : Invariant top free) (differ : other ≠ order)
    (member : number ∈ free order) (otherMember : found ∈ free other) :
    entryOf (chunkOf other found) ≠ entryOf (chunkOf order number) := by
  rw [entryOf_chunkOf, entryOf_chunkOf]
  intro equality
  have sameUnit : found * 2 ^ other = number * 2 ^ order := by omega
  refine differ (invariant.unique (found * 2 ^ other) ?_ ?_)
  · rwa [first_unit_div]
  · rwa [sameUnit, first_unit_div]

theorem entryOf_ne_of_inUse (inUse : ∀ unit, unit / 2 ^ order = number → ¬FreeUnit free unit)
    (otherMember : found ∈ free other) :
    entryOf (chunkOf other found) ≠ entryOf (chunkOf order number) := by
  rw [entryOf_chunkOf, entryOf_chunkOf]
  intro equality
  have sameUnit : number * 2 ^ order = found * 2 ^ other := by omega
  refine inUse (number * 2 ^ order) (first_unit_div number order) ⟨other, ?_⟩
  rwa [sameUnit, first_unit_div]

theorem entryOf_not_mem {numbers : List Nat} {entry : Int}
    (apart : ∀ number ∈ numbers, entryOf (chunkOf order number) ≠ entry) :
    entry ∉ (numbers.map (chunkOf order)).map entryOf := by
  simpa using apart

/-- The zone with the bucket of one order and the page entries replaced. -/
def relinked (zone : PhysicalZone) (order : Nat) (bucket : BuddyBucket)
    (entries : Int → FreelistEntry) : PhysicalZone :=
  { zone with
    buckets := Function.update zone.buckets order bucket
    entries := entries }

/-- Replacing the free list of one order.  The page entries of the other
orders' free blocks must not have changed. -/
theorem Represents.replace (models : Represents top zone free) {entries : Int → FreelistEntry}
    (isList : order ≤ maxOrder → IsList entryOf (-1) entries bucket.freelist
        (list.map (chunkOf order))) (tracks : order ≤ top → Tracks top order list bucket)
    (frame : ∀ other, other ≠ order → ∀ number ∈ free other,
      entries (entryOf (chunkOf other number)) = zone.entries (entryOf (chunkOf other number))) :
    Represents top (zone.relinked order bucket entries) (Function.update free order list) := by
  refine ⟨models.pageCount, ?_, ?_⟩
  · intro other bound
    by_cases same : other = order
    · subst same
      simpa [relinked] using isList bound
    · simp only [relinked, Function.update_of_ne same]
      refine (models.freelist other bound).congr ?_
      intro node member
      obtain ⟨number, numberMember, rfl⟩ := List.mem_map.mp member
      exact frame other same number numberMember
  · intro other bound
    by_cases same : other = order
    · subst same
      simpa [relinked] using tracks bound
    · simp only [relinked, Function.update_of_ne same]
      exact models.tracks other bound

theorem Represents.push (topBound : top ≤ maxOrder) (releasable : Releasable top free order number)
    (models : Represents top zone free) :
    ∃ bucket, { zone.buckets order with freelist := chunkOf order number }.setBuddyBit
        (chunkOf order number) true = some bucket ∧
      Represents top (zone.relinked order bucket (pushFront entryOf (-1) zone.entries
          (zone.buckets order).freelist (chunkOf order number)))
        (Function.update free order (number :: free order)) := by
  obtain ⟨invariant, orderBound, numberBound, inUse⟩ := releasable
  have isList := models.freelist order (le_trans orderBound topBound)
  have apart : ∀ {other found}, found ∈ free other →
      entryOf (chunkOf other found) ≠ entryOf (chunkOf order number) :=
    fun member => entryOf_ne_of_inUse inUse member
  have pushed := isList.pushFront (chunkOf_ne_null order number)
    (entryOf_not_mem fun _ laterMember => apart laterMember)
  obtain ⟨bucket, setBit, freelistEq, bucketTracks⟩ :=
    ((models.tracks order orderBound).withFreelist (chunkOf order number)).setBuddyBit
      topBound orderBound numberBound true (fun _ => pairBit_cons)
  refine ⟨bucket, setBit, models.replace (fun _ => ?_) (fun _ => bucketTracks) ?_⟩
  · rw [freelistEq]
    exact pushed
  · intro other differ found otherMember
    refine isList.pushFront_frame (apart otherMember) (entryOf_not_mem fun later laterMember => ?_)
    exact (entryOf_ne_of_free invariant differ laterMember otherMember).symm

end

/-! ## Guarded writes

The pointer writes of the source stand behind a test.  Read as one update
of the page entries they are the operations of the intrusive list. -/

theorem setNextIndex_guarded (zone : PhysicalZone) (guarded index value : Int) :
    (if guarded ≠ -1 then zone.setNextIndex index value else zone) = { zone with
        entries := if guarded = -1 then zone.entries
          else setNext entryOf zone.entries index value } := by
  by_cases null : guarded = -1 <;> simp [null, setNextIndex]

theorem setPrevIndex_guarded (zone : PhysicalZone) (guarded index value : Int) :
    (if guarded ≠ -1 then zone.setPrevIndex index value else zone) = { zone with
        entries := if guarded = -1 then zone.entries
          else setPrev entryOf zone.entries index value } := by
  by_cases null : guarded = -1 <;> simp [null, setPrevIndex]

theorem setFreelist_guarded (zone : PhysicalZone) (order : Nat)
    (next : Int) (condition : Prop) [Decidable condition] :
    (if condition then zone.setFreelist order next else zone) = zone.relinked order
        { zone.buckets order with
          freelist := if condition then next
            else (zone.buckets order).freelist }
        zone.entries := by
  by_cases holds : condition
  · simp [holds, setFreelist, setBucket, relinked]
  · simp [holds, relinked]

theorem allocateBlockImpl_head {rest : List Nat} (topBound : top ≤ maxOrder)
    (invariant : Invariant top free) (models : Represents top zone free)
    (list : free order = number :: rest) :
    ∃ result, zone.allocateBlockImpl order = some (result, some (chunkOf order number)) ∧
      Represents top result (Function.update free order rest) ∧ SameAccounting zone result := by
  have member : number ∈ free order := by simp [list]
  obtain ⟨orderBound, numberBound⟩ := invariant.inside member
  have inRange : order ≤ maxOrder := le_trans orderBound topBound
  have isList := models.freelist order inRange
  rw [list] at isList
  have headEq : (zone.buckets order).freelist = chunkOf order number := isList.linked.1
  have tracks := models.tracks order orderBound
  have bitSet : pairBit (free order) (number / 2) = true :=
    pairBit_half_eq_true_iff.mpr (.inl member)
  have erased : (free order).erase number = rest := by simp [list]
  have cleared : ∀ pair, pairBit rest pair =
      if pair = number / 2 then false else pairBit (free order) pair := by
    intro pair
    rw [← erased]
    exact pairBit_erase (invariant.nodup order) (invariant.buddy_notMem member)
  have popped := isList.popFront
  obtain ⟨bucket, setBit, freelistEq, bucketTracks⟩ := (tracks.withFreelist (zone.getFreelistEntry
      (zone.buckets order).freelist).nextIndex).setBuddyBit
      topBound orderBound numberBound false cleared
  refine ⟨zone.relinked order bucket (popFront entryOf (-1) zone.entries
        (zone.buckets order).freelist).2,
    ?_, models.replace (fun _ => ?_) (fun _ => bucketTracks) ?_,
    ⟨rfl, rfl⟩⟩
  · rw [allocateBlockImpl, if_neg (by omega),
      if_neg (by rw [headEq]; exact chunkOf_ne_null order number)]
    have getBit := (tracks.withFreelist (zone.getFreelistEntry
      (zone.buckets order).freelist).nextIndex).getBuddyBit
      topBound orderBound numberBound
    rw [bitSet] at getBit
    simp only [getFreelistEntry, headEq] at getBit setBit
    simp only [setPrevIndex_guarded]
    simp [relinked, setFreelist, setBucket, PhysicalZone.setBuddyBit, headEq,
      getBit, setBit, popFront, getFreelistEntry]
  · rw [freelistEq]
    exact popped
  · intro other differ found otherMember
    refine isList.popFront_frame (entryOf_not_mem fun later laterMember => ?_)
    exact (entryOf_ne_of_free invariant differ (by simp [list, laterMember]) otherMember).symm

/-- The second half of the function: the block found one order above is
split, and its first half becomes the only block of this freelist. -/
theorem allocateBlockImpl_split (topBound : top ≤ maxOrder) (models : Represents top zone free)
    (empty : free order = []) (inRange : order ≤ maxOrder)
    (above : Allocated top free (order + 1) split parent)
    (success : zone.allocateBlockImpl (order + 1) = some (found, some (chunkOf (order + 1) parent)))
    (foundModels : Represents top found split) :
    ∃ result, zone.allocateBlockImpl order = some (result, some (chunkOf order (2 * parent + 1))) ∧
      Represents top result (Function.update split order [2 * parent]) ∧
      SameAccounting found result := by
  have orderBound : order + 1 ≤ top := above.orderBound
  have numberBound := above.numberBound
  have width := pow_sub_succ orderBound
  have splitEmpty : split order = [] := by rw [above.below order (lt_succ_self order), empty]
  have noFreelist : (zone.buckets order).freelist = -1 :=
    (models.freelist order inRange).head_eq_null_iff.mpr (by simp [empty])
  have headNull : (found.buckets order).freelist = -1 :=
    (foundModels.freelist order inRange).head_eq_null_iff.mpr (by simp [splitEmpty])
  have firstBound : 2 * parent < 2 ^ (top - order) := by omega
  have getBit := ((foundModels.tracks order (by omega)).withFreelist
    (chunkOf order (2 * parent))).getBuddyBit topBound (by omega) firstBound
  obtain ⟨bucket, setBit, pushed⟩ := foundModels.push topBound
    ⟨above.invariant, by omega, firstBound, above.half_inUse (by omega)⟩
  rw [splitEmpty] at getBit pushed
  refine ⟨_, ?_, pushed, ⟨rfl, rfl⟩⟩
  have second : toChunkIndex (chunkOf order (2 * parent) + blockSize order) =
      chunkOf order (2 * parent + 1) := by
    rw [blockSize_eq inRange, chunkOf_even, ← chunkOf_odd]
    exact toChunkIndex_chunkOf topBound (by omega) (by omega)
  rw [allocateBlockImpl, if_neg (by omega), if_pos noFreelist, success, ← chunkOf_even]
  have noPair : pairBit [] (2 * parent / 2) = false := rfl
  rw [noPair] at getBit
  simp [setFreelistEntry, setFreelist, setBucket, relinked, PhysicalZone.setBuddyBit, getBit,
    setBit, second, pushFront, headNull]

theorem allocateBlockImpl_refines (topBound : top ≤ maxOrder) (invariant : Invariant top free)
    (models : Represents top zone free) (order : Nat) :
    match Buddy.allocate maxOrder free order with
    | none => zone.allocateBlockImpl order = some (zone, none)
    | some (remaining, number) => ∃ result, zone.allocateBlockImpl order =
          some (result, some (chunkOf order number)) ∧
        Represents top result remaining ∧
        SameAccounting zone result := by
  induction order using Buddy.allocate.induct maxOrder free with
  | case1 order tooLarge =>
    rw [Buddy.allocate, if_pos tooLarge]
    rw [allocateBlockImpl, if_pos tooLarge]
  | case2 order inRange first rest list =>
    rw [Buddy.allocate, if_neg inRange, list]
    exact allocateBlockImpl_head topBound invariant models list
  | case3 order inRange empty failed ih =>
    rw [Buddy.allocate, if_neg inRange, empty]
    simp only [failed] at ih ⊢
    have noFreelist : (zone.buckets order).freelist = -1 :=
      (models.freelist order (by omega)).head_eq_null_iff.mpr (by simp [empty])
    rw [allocateBlockImpl, if_neg inRange, if_pos noFreelist, ih]
    rfl
  | case4 order inRange empty split parent found ih =>
    rw [Buddy.allocate, if_neg inRange, empty]
    simp only [found] at ih ⊢
    obtain ⟨larger, success, largerModels, sameLarger⟩ := ih
    obtain ⟨result, resultSuccess, resultModels, sameResult⟩ :=
      allocateBlockImpl_split topBound models empty (by omega)
        (allocate_spec invariant found) success largerModels
    exact ⟨result, resultSuccess, resultModels,
      sameResult.baseAddress.trans sameLarger.baseAddress,
      sameResult.usedChunks.trans sameLarger.usedChunks⟩

theorem links_ge {list : List Nat} {entries : Int → FreelistEntry}
    (isList : IsList entryOf (-1) entries head
      (list.map (chunkOf order))) (member : number ∈ list) :
    (entries (entryOf (chunkOf order number))).prevIndex ≥ -1 ∧
      (entries (entryOf (chunkOf order number))).nextIndex ≥ -1 := by
  have nodeBound : ∀ node ∈ list.map (chunkOf order), node ≥ -1 := by
    intro node nodeMember
    obtain ⟨found, _, rfl⟩ := List.mem_map.mp nodeMember
    unfold chunkOf
    omega
  obtain ⟨next, prev⟩ := isList.neighbors (List.mem_map_of_mem member)
  constructor
  · rcases prev with isNull | inList
    · omega
    · exact nodeBound _ inList
  · rcases next with isNull | inList
    · omega
    · exact nodeBound _ inList

theorem removeFromFreelist_eq (models : Represents top zone free)
    (inRange : order ≤ maxOrder) (member : number ∈ free order) :
    zone.removeFromFreelist order (chunkOf order number) = some (zone.relinked order
        { zone.buckets order with freelist := (unlink entryOf (-1) zone.entries
            (zone.buckets order).freelist (chunkOf order number)).1 }
        (unlink entryOf (-1) zone.entries
          (zone.buckets order).freelist (chunkOf order number)).2) := by
  obtain ⟨prevOk, nextOk⟩ : (zone.getFreelistEntry (chunkOf order number)).prevIndex ≥ -1 ∧
        (zone.getFreelistEntry (chunkOf order number)).nextIndex ≥ -1 :=
    links_ge (models.freelist order inRange) member
  unfold removeFromFreelist
  rw [verify_eq_some (decide_eq_true prevOk), verify_eq_some (decide_eq_true nextOk)]
  simp only [setNextIndex_guarded, setPrevIndex_guarded, setFreelist_guarded, some_bind]
  rfl

section

variable (topBound : top ≤ maxOrder)

include topBound

theorem buddyBase_eq (orderBound : order ≤ top) (numberBound : number < 2 ^ (top - order)) :
    toChunkIndex ((number / 2) <<< 1 <<< (1 + order) : Nat) = chunkOf (order + 1) (number / 2) := by
  have shifted : (number / 2) <<< 1 <<< (1 + order) = 2 * (number / 2) * (2 * 2 ^ order) := by
    rw [shiftLeft_eq, shiftLeft_eq]
    ring
  have base : (((number / 2) <<< 1 <<< (1 + order) : Nat) : Int) =
      chunkOf order (2 * (number / 2)) := by
    rw [shifted, chunkOf]
  rw [base, ← chunkOf_even]
  exact toChunkIndex_chunkOf topBound orderBound (by omega)

theorem removed_buddy (orderBound : order ≤ top) (buddyBound : buddy number < 2 ^ (top - order)) :
    (if chunkOf order number = chunkOf (order + 1) (number / 2) then toChunkIndex
        (chunkOf (order + 1) (number / 2) + blockSize order)
      else chunkOf (order + 1) (number / 2)) =
      chunkOf order (buddy number) := by
  have inRange : order ≤ maxOrder := le_trans orderBound topBound
  rw [← chunkOf_even]
  by_cases even : number % 2 = 0
  · have numberEq : 2 * (number / 2) = number := by omega
    have buddyEq : buddy number = 2 * (number / 2) + 1 := by
      unfold buddy
      rw [if_pos even, numberEq]
    have next : toChunkIndex (chunkOf order number + blockSize order) =
        chunkOf order (buddy number) := by
      rw [blockSize_eq inRange, ← toChunkIndex_chunkOf topBound orderBound
        buddyBound, buddyEq, chunkOf_odd, ← chunkOf_even, numberEq]
    rw [numberEq, if_pos rfl, next]
  · have buddyEq : buddy number = 2 * (number / 2) := by
      unfold buddy
      rw [if_neg even]
      omega
    have differ : chunkOf order number ≠ chunkOf order (2 * (number / 2)) := by
      intro equality
      have same := chunkOf_injective equality
      omega
    rw [if_neg differ, buddyEq]

section

variable (releasable : Releasable top free order number)

include releasable

section

variable (models : Represents top zone free)

include models

/-- The merge step: the free buddy leaves its freelist and the pair bit is
cleared. -/
theorem deallocateBlockImpl_merge (buddyFree : buddy number ∈ free order) :
    ∃ merged, zone.deallocateBlockImpl (chunkOf order number) order = merged.deallocateBlockImpl
          (chunkOf (order + 1) (number / 2)) (order + 1) ∧
      Represents top merged (Function.update free order ((free order).erase (buddy number))) ∧
      SameAccounting zone merged := by
  have invariant := releasable.invariant
  have orderBound := releasable.orderBound
  have numberBound := releasable.numberBound
  have inRange : order ≤ maxOrder := le_trans orderBound topBound
  have isList := models.freelist order inRange
  have tracks := models.tracks order orderBound
  obtain ⟨_, buddyBound⟩ := invariant.inside buddyFree
  have bitSet : pairBit (free order) (number / 2) = true :=
    pairBit_half_eq_true_iff.mpr (.inr buddyFree)
  have halfBuddy : buddy number / 2 = number / 2 := (half_eq_iff number _).mpr (.inr rfl)
  have cleared : ∀ pair, pairBit ((free order).erase (buddy number)) pair =
        if pair = number / 2 then false else pairBit (free order) pair := by
    intro pair
    rw [← halfBuddy]
    exact pairBit_erase (invariant.nodup order) (invariant.buddy_notMem buddyFree)
  have unlinked := isList.unlink (List.mem_map_of_mem (f := chunkOf order) buddyFree)
  have erasedMap : ((free order).map (chunkOf order)).erase (chunkOf order (buddy number)) =
      ((free order).erase (buddy number)).map (chunkOf order) :=
    (List.map_erase (fun _ _ equality => chunkOf_injective equality) _).symm
  rw [erasedMap] at unlinked
  have removed := removeFromFreelist_eq models inRange buddyFree
  generalize unlinkEq : unlink entryOf (-1) zone.entries
    (zone.buckets order).freelist (chunkOf order (buddy number)) = outcome
    at unlinked removed
  obtain ⟨bucket, setBit, freelistEq, bucketTracks⟩ :=
    (tracks.withFreelist outcome.1).setBuddyBit topBound orderBound numberBound false cleared
  refine ⟨zone.relinked order bucket outcome.2, ?_,
    models.replace (fun _ => ?_) (fun _ => bucketTracks) ?_,
    ⟨rfl, rfl⟩⟩
  · have getBit := tracks.getBuddyBit topBound orderBound numberBound
    rw [bitSet] at getBit
    have bitIndex := buddyBitIndex_chunkOf tracks.bucketOrder topBound orderBound numberBound
    rw [deallocateBlockImpl, if_neg (by omega)]
    simp only [getBit, bitIndex, buddyBase_eq topBound orderBound numberBound,
      removed_buddy topBound orderBound buddyBound, removed, some_bind, if_true]
    simp [relinked, PhysicalZone.setBuddyBit, setBucket, setBit]
  · rw [freelistEq]
    exact unlinked
  · intro other differ found otherMember
    rw [← unlinkEq]
    refine isList.unlink_frame (List.mem_map_of_mem buddyFree)
      (entryOf_not_mem fun later laterMember => ?_)
    exact (entryOf_ne_of_free invariant differ laterMember otherMember).symm

/-- The final step: the buddy is in use, so the block joins its freelist. -/
theorem deallocateBlockImpl_push (buddyInUse : buddy number ∉ free order) :
    ∃ result, zone.deallocateBlockImpl (chunkOf order number) order = some result ∧
      Represents top result (Function.update free order (number :: free order)) ∧
      SameAccounting zone result := by
  have orderBound := releasable.orderBound
  have notFree : number ∉ free order :=
    fun member => entryOf_ne_of_inUse releasable.inUse member rfl
  have bitClear : pairBit (free order) (number / 2) = false := by
    rw [Bool.eq_false_iff, Ne, pairBit_half_eq_true_iff]
    exact fun found => found.elim notFree buddyInUse
  obtain ⟨bucket, setBit, pushed⟩ := models.push topBound releasable
  refine ⟨_, ?_, pushed, ⟨rfl, rfl⟩⟩
  have getBit := (models.tracks order orderBound).getBuddyBit
    topBound orderBound releasable.numberBound
  rw [bitClear] at getBit
  rw [deallocateBlockImpl, if_neg (by omega)]
  simp only [getBit, some_bind, Bool.false_eq_true, if_false]
  rw [setPrevIndex_guarded]
  simp [setFreelistEntry, setFreelist, setBucket, relinked, PhysicalZone.setBuddyBit, setBit,
    pushFront]

theorem deallocateBlockImpl_refines :
    ∃ result remaining, Buddy.release maxOrder free order number = some remaining ∧
      zone.deallocateBlockImpl (chunkOf order number) order = some result ∧
      Represents top result remaining ∧ SameAccounting zone result := by
  induction width : top + 1 - order generalizing zone free order number with
  | zero =>
    have orderBound := releasable.orderBound
    omega
  | succ rest ih =>
    by_cases buddyFree : buddy number ∈ free order
    · obtain ⟨merged, mergeEq, mergedModels, sameMerged⟩ :=
        deallocateBlockImpl_merge topBound releasable models buddyFree
      obtain ⟨result, remaining, released, success, resultModels,
        sameResult⟩ := ih (releasable.merge buddyFree) mergedModels (by omega)
      refine ⟨result, remaining, ?_, mergeEq.trans success, resultModels,
        sameResult.baseAddress.trans sameMerged.baseAddress,
        sameResult.usedChunks.trans sameMerged.usedChunks⟩
      rw [Buddy.release, if_neg (by omega), if_pos buddyFree]
      exact released
    · obtain ⟨result, success, resultModels, same⟩ :=
        deallocateBlockImpl_push topBound releasable models buddyFree
      refine ⟨result, _, ?_, success, resultModels, same⟩
      rw [Buddy.release, if_neg (by omega), if_neg buddyFree]

end

end

end

/-- The free lists of a zone that consists of one free block. -/
def wholeZone (top : Nat) : FreeLists := Function.update (fun _ => []) top [0]

theorem wholeZone_invariant (top : Nat) : Invariant top (wholeZone top) := by
  have empty : Invariant top (fun _ => []) := ⟨by simp, by simp, by simp, by simp⟩
  have noUnit : ∀ unit, ¬FreeUnit (fun _ => []) unit := by
    rintro unit ⟨order, member⟩
    simp at member
  exact empty.cons (le_refl top) (by simp) (fun unit _ => noUnit unit) (by simp)

theorem freeUnit_wholeZone (top unit : Nat) : FreeUnit (wholeZone top) unit ↔ unit < 2 ^ top := by
  have noUnit : ¬FreeUnit (fun _ => []) unit := by
    rintro ⟨order, member⟩
    simp at member
  have added := Invariant.freeUnit_cons (fun _ => []) top 0 unit
  rw [wholeZone, added]
  constructor
  · rintro (isFree | first)
    · exact absurd isFree noUnit
    · exact (Nat.div_eq_zero_iff.mp first).resolve_left (Nat.two_pow_pos top).ne'
  · intro below
    exact .inr (Nat.div_eq_of_lt below)

theorem emptyBucket_tracks (topBound : top ≤ maxOrder) (orderBound : order ≤ top) :
    Tracks top order [] (emptyBucket (2 ^ top * 2) order) := by
  refine ⟨rfl, ?_⟩
  have inRange : order ≤ maxOrder := le_trans orderBound topBound
  have blocks : 2 ^ top * 2 / blockSize order = 2 ^ (top - order) := by
    rw [blockSize_eq inRange, Nat.mul_comm, Nat.mul_div_mul_left _ _ (by omega),
      Nat.pow_div orderBound (by omega)]
  intro pair
  simp only [emptyBucket, blocks, pairCount, List.getElem?_replicate]
  rfl

theorem create_represents {top : Nat} (topBound : top ≤ maxOrder)
    (entries : Int → FreelistEntry) (baseAddress : Nat) :
    ∃ zone, create entries baseAddress (2 ^ top) = some zone ∧ Represents top zone (wholeZone top) ∧
      zone.baseAddress = baseAddress ∧ zone.usedChunks = 0 := by
  have narrow : maxOrder = 12 := rfl
  have firstOrder : countTrailingZeroes 64 (2 ^ top) = top := countTrailingZeroes_two_pow (by omega)
  have oneBlock : 2 ^ top * 2 / blockSize top = 1 := by
    rw [blockSize_eq topBound, mul_comm]
    exact Nat.div_self (by positivity)
  let initial : PhysicalZone :=
    { baseAddress := baseAddress
      pageCount := 2 ^ top
      usedChunks := 0
      buckets := emptyBucket (2 ^ top * 2)
      entries := entries }
  have blank : Represents top initial (fun _ => []) :=
    ⟨rfl, fun _ _ => isList_nil, fun _ bound => emptyBucket_tracks topBound bound⟩
  have firstBlock : (0 : Nat) < 2 ^ (top - top) := by simp
  have index : toChunkIndex 0 = chunkOf top 0 := by
    rw [← toChunkIndex_chunkOf topBound (le_refl top) firstBlock]
    simp [chunkOf]
  obtain ⟨bucket, setBit, freelistEq, bucketTracks⟩ :=
    (emptyBucket_tracks topBound (le_refl top)).setBuddyBit topBound
      (le_refl top) firstBlock true (fun _ => pairBit_cons)
  have emptyList : IsList entryOf (-1) entries (-1) [] := isList_nil
  have pushed := emptyList.pushFront (chunkOf_ne_null top 0) (by simp)
  have replaced : Represents top (initial.relinked top { bucket with freelist := chunkOf top 0 }
        (pushFront entryOf (-1) entries (-1) (chunkOf top 0)))
      (wholeZone top) :=
    blank.replace (fun _ => pushed) (fun _ => bucketTracks.withFreelist _) (by simp)
  refine ⟨_, ?_, replaced, rfl, rfl⟩
  have unlinkedHead : bucket.freelist = -1 := freelistEq
  simp [create, firstOrder, oneBlock, addInitialBlock, index, PhysicalZone.setBuddyBit, setBit,
    setFreelistEntry, setFreelist, setBucket, relinked, unlinkedHead, initial, pushFront]

end PhysicalZone

end MixUpOS.Kernel.Memory
