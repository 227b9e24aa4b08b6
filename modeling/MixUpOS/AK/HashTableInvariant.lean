import MixUpOS.AK.HashTableLinks
import MixUpOS.Library.DistinctLists
import MixUpOS.Library.RobinHood

/-!
# What a hash table represents

A hash table represents the list of its entries.  The list has no two equal
entries; for an ordered table it is the list that its buckets are threaded on,
and for an unordered one its order says nothing.
-/

namespace MixUpOS.AK

open Library Function List

/-- `equals` is an equivalence and `hash` respects it. -/
structure HashTraits.Lawful {T : Type} (traits : HashTraits T) : Prop where
  equivalent : Equivalent traits.equals
  hash_eq : ∀ {first second}, traits.equals first second = true →
    traits.hash first = traits.hash second

namespace HashTable

open RobinHood LinkedSequences DistinctLists

variable {T : Type} {traits : HashTraits T} {table later : HashTable T}

section

variable (pointer other source target : BucketPointer) (value : Bucket T) (state : Nat)
  (change : Links BucketPointer → Links BucketPointer)

@[simp] theorem setBucket_buckets : (table.setBucket pointer value).buckets other =
      if other = pointer then value else table.buckets other := by
  simp [setBucket, update_apply]

@[simp] theorem setBucket_capacity :
    (table.setBucket pointer value).capacity = table.capacity := rfl

@[simp] theorem setBucket_same : (table.setBucket pointer value).links = table.links ∧
    (table.setBucket pointer value).size = table.size ∧
    (table.setBucket pointer value).hasBuckets = table.hasBuckets :=
  ⟨rfl, rfl, rfl⟩

@[simp] theorem setState_buckets : (table.setState pointer state).buckets other =
      if other = pointer then ⟨state, (table.buckets pointer).slot⟩
      else table.buckets other := by
  simp [setState]

@[simp] theorem setState_capacity : (table.setState pointer state).capacity = table.capacity := rfl

@[simp] theorem setState_same : (table.setState pointer state).links = table.links ∧
    (table.setState pointer state).size = table.size ∧
    (table.setState pointer state).hasBuckets = table.hasBuckets :=
  ⟨rfl, rfl, rfl⟩

@[simp] theorem moveBucket_buckets : (table.moveBucket source target).buckets other =
      if other = target then table.buckets source
      else table.buckets other := by
  simp [moveBucket, setLinks]

@[simp] theorem moveBucket_same : (table.moveBucket source target).capacity = table.capacity ∧
    (table.moveBucket source target).size = table.size ∧
    (table.moveBucket source target).hasBuckets = table.hasBuckets :=
  ⟨rfl, rfl, rfl⟩

@[simp] theorem ifOrdered_same : (table.ifOrdered traits change).buckets = table.buckets ∧
    (table.ifOrdered traits change).capacity = table.capacity ∧
    (table.ifOrdered traits change).size = table.size ∧
    (table.ifOrdered traits change).hasBuckets = table.hasBuckets := by
  unfold ifOrdered
  split_ifs <;> exact ⟨rfl, rfl, rfl, rfl⟩

theorem ifOrdered_links (isOrdered : traits.isOrdered = true) :
    (table.ifOrdered traits change).links = change table.links := by
  simp [ifOrdered, isOrdered, setLinks]

end

def SameArray (later table : HashTable T) : Prop :=
  later.hasBuckets = table.hasBuckets ∧ later.capacity = table.capacity

theorem SameArray.trans {last : HashTable T} (second : last.SameArray later)
    (first : later.SameArray table) : last.SameArray table :=
  ⟨second.1.trans first.1, second.2.trans first.2⟩

/-- The distance of an entry at an index from its ideal index. -/
abbrev lengthAt (traits : HashTraits T) (capacity : Nat) (entry : T) (index : Nat) : Nat :=
  probeLength capacity (idealIndex traits capacity) entry index

/-- What a bucket of the array looks like that holds an entry or none. -/
def Holds (traits : HashTraits T) (capacity index : Nat) (bucket : Bucket T) : Option T → Prop
  | none => bucket.state = 0
  | some entry => bucket = ⟨bucketStateForProbeLength (lengthAt traits capacity entry index),
        some entry⟩

section

variable {capacity index : Nat} {bucket : Bucket T} {entry : T}

theorem bucketStateForProbeLength_ne_zero (length : Nat) :
    bucketStateForProbeLength length ≠ 0 := by
  unfold bucketStateForProbeLength
  split_ifs <;> omega

theorem Holds.isFree (holds : Holds traits capacity index bucket content) :
    bucket.isFree = content.isNone := by
  cases content with
  | none => simpa [Holds, Bucket.isFree] using holds
  | some entry =>
    rw [Holds] at holds
    simp [holds, Bucket.isFree, bucketStateForProbeLength_ne_zero]

theorem Holds.slot (holds : Holds traits capacity index bucket (some entry)) :
    bucket.slot = some entry := by
  rw [Holds] at holds
  simp [holds]

theorem usedBucketProbeLength_eq
    (holds : Holds traits table.capacity index (table.bucket index) (some entry)) :
    usedBucketProbeLength traits table index =
      some (lengthAt traits table.capacity entry index) := by
  have used := holds.isFree
  rw [usedBucketProbeLength, used, holds]
  simp only [Option.isNone_some, Bool.not_false, verify_true, some_bind, bucketStateForProbeLength]
  by_cases long : 253 < lengthAt traits table.capacity entry index
  · simp only [long, if_true]
    rfl
  · have notMarked : lengthAt traits table.capacity entry index + 1 ≠ 255 := by omega
    simp [long, notMarked]

end

/-- The buckets that are in use, `bucketToMove` among them while it is in
hand. -/
def Occupied (capacity : Nat) (slots : Nat → Option T) (inHand : Bool) : BucketPointer → Prop
  | .index index => index < capacity ∧ slots index ≠ none
  | .bucketToMove => inHand = true

/-- The buckets in use are threaded in the order of the list, and the others
have no links. -/
structure Arranged (table : HashTable T) (occupied : BucketPointer → Prop)
    (list : List T) (order : List BucketPointer) : Prop where
  listed : Listed table.links order
  members : ∀ pointer, pointer ∈ order ↔ occupied pointer
  entries : order.map (fun pointer => (table.buckets pointer).slot) = list.map some
  linkless : ∀ index, ¬ occupied (.index index) → table.links.previous (.index index) = none ∧
      table.links.next (.index index) = none

def Ordered (traits : HashTraits T) (table : HashTable T)
    (occupied : BucketPointer → Prop) (list : List T) : Prop :=
  traits.isOrdered = true → ∃ order, Arranged table occupied list order

section

variable {list : List T}

section

variable (arranged : Arranged table occupied list order)

include arranged

theorem Arranged.linkless_of (unoccupied : ¬ occupied (.index index))
    (same : .index index ∉ order → SameLinks later.links table.links (.index index)) :
    later.links.previous (.index index) = none ∧ later.links.next (.index index) = none := by
  rw [← arranged.members] at unoccupied
  obtain ⟨samePrevious, sameNext⟩ := same unoccupied
  rw [samePrevious, sameNext]
  exact arranged.linkless index (by rwa [← arranged.members])

theorem Arranged.rename (listed : Listed later.links (order.map (renamed left right)))
    (entries : ∀ pointer ∈ order, (later.buckets (renamed left right pointer)).slot =
        (table.buckets pointer).slot)
    (members : ∀ pointer, stillOccupied pointer ↔ occupied (renamed left right pointer))
    (outside : ∀ pointer, pointer ∉ order → pointer ≠ right →
      SameLinks later.links table.links pointer) (member : left ∈ order)
    (cleared : left ≠ .bucketToMove →
      later.links.previous left = none ∧ later.links.next left = none) :
    Arranged later stillOccupied list (order.map (renamed left right)) := by
  refine ⟨listed, ?_, ?_, ?_⟩
  · intro pointer
    rw [members, ← arranged.members, mem_map]
    constructor
    · rintro ⟨original, inOrder, rfl⟩
      rwa [renamed_renamed]
    · intro inOrder
      exact ⟨_, inOrder, renamed_renamed⟩
  · rw [map_map, ← arranged.entries]
    apply map_congr_left
    intro pointer inOrder
    exact entries pointer inOrder
  · intro index unoccupied
    rw [members] at unoccupied
    by_cases isLeft : .index index = left
    · rw [isLeft]
      exact cleared (by simp [← isLeft])
    have notRight : .index index ≠ right := by
      rintro rfl
      simp [renamed, isLeft, ← arranged.members, member] at unoccupied
    have same : renamed left right (.index index) = .index index := by
      simp [renamed, isLeft, notRight]
    rw [same] at unoccupied
    exact arranged.linkless_of unoccupied fun notMember => outside _ notMember notRight

end

section

variable {capacity index : Nat} {entry : T}

theorem Arranged.not_mem (arranged : Arranged table (Occupied capacity slots inHand) list order)
    (free : slots index = none) : .index index ∉ order := by
  rw [arranged.members]
  simp [Occupied, free]

variable (bound : index < capacity)

include bound

theorem Arranged.mem (arranged : Arranged table (Occupied capacity slots inHand) list order)
    (used : slots index ≠ none) : .index index ∈ order :=
  (arranged.members _).mpr ⟨bound, used⟩

theorem occupied_update : Occupied capacity (update slots index (some entry)) inHand pointer ↔
      pointer = .index index ∨ Occupied capacity slots inHand pointer := by
  cases pointer with
  | bucketToMove => simp [Occupied]
  | index other =>
    by_cases here : other = index
    · simp [Occupied, here, bound]
    · simp [Occupied, here]

theorem occupied_update_used (used : slots index ≠ none) :
    Occupied capacity (update slots index (some entry)) inHand pointer ↔
      Occupied capacity slots inHand pointer := by
  rw [occupied_update bound, or_iff_right_of_imp]
  rintro rfl
  exact ⟨bound, used⟩

end

end

/-- The table represents the list. -/
structure Represents (traits : HashTraits T) (table : HashTable T)
    (slots : Nat → Option T) (list : List T) : Prop where
  holds : ∀ index < table.capacity,
    Holds traits table.capacity index (table.bucket index) (slots index)
  probing : Probing table.capacity (idealIndex traits table.capacity) slots
  contents : contents table.capacity slots = list
  size : table.size = list.length
  distinct : Distinct traits.equals list
  ordered : Ordered traits table (Occupied table.capacity slots false) list

/-- The table while an entry is in hand that may be put down at the index. -/
structure InHand (traits : HashTraits T) (table : HashTable T)
    (slots : Nat → Option T) (list : List T) (entry : T) (index : Nat) :
    Prop where
  holds : ∀ index < table.capacity,
    Holds traits table.capacity index (table.bucket index) (slots index)
  probing : Probing table.capacity (idealIndex traits table.capacity) slots
  carried : Carried table.capacity (idealIndex traits table.capacity) slots entry index
  hand : (table.buckets .bucketToMove).slot = some entry
  contents : entry ::ₘ RobinHood.contents table.capacity slots = list
  size : table.size = list.length
  distinct : Distinct traits.equals list
  ordered : Ordered traits table (Occupied table.capacity slots true) list

section

variable {slots : Nat → Option T} {list : List T} {entry : T} {index probeLength : Nat}

theorem writeFree_ordered
    (ordered : Ordered traits table (Occupied table.capacity slots false) list)
    (bound : index < table.capacity) (free : slots index = none) :
    Ordered traits (writeFree traits table value index probeLength) (Occupied table.capacity
        (update slots index (some value)) false) (list ++ [value]) := by
  intro isOrdered
  obtain ⟨order, arranged⟩ := ordered isOrdered
  have fresh := arranged.not_mem free
  obtain ⟨noPrevious, noNext⟩ := arranged.linkless index (by simp [Occupied, free])
  have links : (writeFree traits table value index probeLength).links =
      updateCollectionForNewBucket table.links (.index index) := by
    simp [writeFree, writeBucket, ifOrdered_links, isOrdered]
  obtain ⟨listed, outside⟩ := listed_of_new arranged.listed fresh noNext fun _ => noPrevious
  rw [← links] at listed outside
  refine ⟨_, listed, ?_, ?_, ?_⟩
  · intro pointer
    rw [mem_append, mem_singleton, arranged.members, occupied_update bound, or_comm]
  · rw [map_append, map_append, ← arranged.entries]
    congr 1
    · apply map_congr_left
      intro pointer inOrder
      have apart : pointer ≠ .index index := fun same => fresh (same ▸ inOrder)
      simp [writeFree, writeBucket, apart]
    · simp [writeFree, writeBucket]
  · intro other unoccupied
    rw [occupied_update bound, not_or] at unoccupied
    obtain ⟨apart, before⟩ := unoccupied
    exact arranged.linkless_of before fun notMember => outside _ notMember apart

section

variable (ordered : Ordered traits table (Occupied table.capacity slots true) list)

include ordered

theorem settleBucket_ordered (bound : index < table.capacity) (free : slots index = none) :
    Ordered traits (settleBucket traits table index probeLength) (Occupied table.capacity
        (update slots index (some entry)) false) list := by
  intro isOrdered
  obtain ⟨order, arranged⟩ := ordered isOrdered
  have member : .bucketToMove ∈ order := (arranged.members _).mpr rfl
  have fresh := arranged.not_mem free
  have links : (settleBucket traits table index probeLength).links =
      updateCollectionForSwappedBuckets (table.moveBucket .bucketToMove (.index index)).links
        .bucketToMove (.index index) := by
    simp [settleBucket, ifOrdered_links, isOrdered]
  obtain ⟨listed, outside⟩ := listed_of_swap (table.moveBucket .bucketToMove (.index index)).links
    arranged.listed (by simp) member (.inr ⟨fresh, rfl⟩) rfl rfl (by grind [moveBucket, setLinks])
    (by grind [moveBucket, setLinks])
  rw [← links] at listed outside
  refine ⟨_, arranged.rename listed ?_ ?_ outside member (absurd rfl)⟩
  · intro pointer inOrder
    have apart : pointer ≠ .index index := fun same => fresh (same ▸ inOrder)
    by_cases hand : pointer = .bucketToMove
    · simp [settleBucket, hand, renamed]
    · simp [settleBucket, hand, apart, renamed]
  · intro pointer
    cases pointer with
    | bucketToMove => simp [Occupied, renamed, free]
    | index other =>
      by_cases here : other = index
      · simp [Occupied, renamed, here, bound]
      · simp [Occupied, renamed, here]

theorem exchangeBucket_ordered (bound : index < table.capacity) (used : slots index ≠ none) :
    Ordered traits (exchangeBucket traits table index probeLength) (Occupied table.capacity
        (update slots index (some entry)) true) list := by
  intro isOrdered
  obtain ⟨order, arranged⟩ := ordered isOrdered
  have member : .bucketToMove ∈ order := (arranged.members _).mpr rfl
  have otherMember := arranged.mem bound used
  have links : (exchangeBucket traits table index probeLength).links =
      updateCollectionForSwappedBuckets (table.swapBuckets .bucketToMove (.index index)).links
        .bucketToMove (.index index) := by
    simp [exchangeBucket, ifOrdered_links, isOrdered]
  obtain ⟨listed, outside⟩ := listed_of_swap (table.swapBuckets .bucketToMove (.index index)).links
    arranged.listed (by simp) member (.inl ⟨otherMember, rfl⟩) rfl rfl (fun _ => rfl) (fun _ => rfl)
  rw [← links] at listed outside
  refine ⟨_, arranged.rename listed ?_ ?_ outside member (absurd rfl)⟩
  · intro pointer inOrder
    by_cases hand : pointer = .bucketToMove
    · simp [exchangeBucket, hand, renamed, swapBuckets, setLinks]
    · by_cases here : pointer = .index index
      · simp [exchangeBucket, here, renamed, swapBuckets, setLinks]
      · simp [exchangeBucket, hand, here, renamed, swapBuckets, setLinks]
  · intro pointer
    rw [occupied_update_used bound used]
    by_cases hand : pointer = .bucketToMove
    · simp [hand, renamed, Occupied, bound, used]
    · by_cases here : pointer = .index index
      · simp [here, renamed, Occupied, bound, used]
      · simp [hand, here, renamed]

end

section

variable (ordered : Ordered traits table (Occupied table.capacity slots false) list)
  (bound : index < table.capacity)

include ordered bound

theorem steal_ordered (used : slots index ≠ none) :
    Ordered traits (steal traits table value index probeLength) (Occupied table.capacity
        (update slots index (some value)) true) (list ++ [value]) := by
  intro isOrdered
  obtain ⟨order, arranged⟩ := ordered isOrdered
  have member := arranged.mem bound used
  have handFresh : .bucketToMove ∉ order := by
    rw [arranged.members]
    simp [Occupied]
  obtain ⟨copied, outsideCopy⟩ := listed_of_swap
    (table.moveBucket (.index index) .bucketToMove).links arranged.listed (by simp) member
    (.inr ⟨handFresh, rfl⟩) rfl rfl (by grind [moveBucket, setLinks])
    (by grind [moveBucket, setLinks])
  have moved : ∀ pointer, pointer ∈ order.map (renamed (.index index) .bucketToMove) ↔
        pointer = .bucketToMove ∨ pointer ∈ order ∧ pointer ≠ .index index := by
    intro pointer
    rw [mem_map]
    constructor
    · rintro ⟨original, inOrder, rfl⟩
      by_cases here : original = .index index
      · simp [here, renamed]
      · have notHand : original ≠ .bucketToMove := fun same => handFresh (same ▸ inOrder)
        simp [here, notHand, renamed, inOrder]
    · rintro (rfl | ⟨inOrder, apart⟩)
      · exact ⟨_, member, by simp [renamed]⟩
      · have notHand : pointer ≠ .bucketToMove := fun same => handFresh (same ▸ inOrder)
        exact ⟨pointer, inOrder, by simp [renamed, apart, notHand]⟩
  have fresh : BucketPointer.index index ∉ order.map (renamed (.index index) .bucketToMove) := by
    rw [moved]
    simp
  have notEmpty : order.map (renamed (.index index) .bucketToMove) ≠ [] :=
    ne_nil_of_mem ((moved .bucketToMove).mpr (.inl rfl))
  obtain ⟨listed, outside⟩ := listed_of_new (copied.setNext_outside fresh none) fresh (by simp)
    fun isEmpty => absurd isEmpty notEmpty
  have links : (steal traits table value index probeLength).links = updateCollectionForNewBucket
        ((updateCollectionForSwappedBuckets (table.moveBucket (.index index) .bucketToMove).links
          (.index index) .bucketToMove).setNext (.index index) none)
        (.index index) := by
    simp [steal, writeBucket, ifOrdered_links, isOrdered]
  rw [← links] at listed outside
  refine ⟨_, listed, ?_, ?_, ?_⟩
  · intro pointer
    rw [mem_append, moved, arranged.members]
    cases pointer with
    | bucketToMove => simp [Occupied]
    | index other =>
      by_cases here : other = index
      · simp [Occupied, here, bound]
      · simp [Occupied, here]
  · rw [map_append, map_append, ← arranged.entries, map_map]
    congr 1
    · apply map_congr_left
      intro pointer inOrder
      have notHand : pointer ≠ .bucketToMove := fun same => handFresh (same ▸ inOrder)
      by_cases here : pointer = .index index
      · simp [steal, writeBucket, here, renamed]
      · simp [steal, writeBucket, here, notHand, renamed]
    · simp [steal, writeBucket]
  · intro other unoccupied
    rw [occupied_update bound, not_or] at unoccupied
    obtain ⟨apart, before⟩ := unoccupied
    apply arranged.linkless_of before
    intro notMember
    obtain ⟨samePrevious, sameNext⟩ := outside _ (by rw [moved]; simp [notMember]) apart
    rw [SameLinks, samePrevious, sameNext, Links.setNext_next, if_neg apart]
    exact outsideCopy _ notMember (by simp)

theorem destroyBucket_ordered (lawful : traits.Lawful) (distinct : Distinct traits.equals list)
    (found : slots index = some entry) (slot : (table.bucket index).slot = some entry) :
    Ordered traits (destroyBucket traits table index)
      (Occupied table.capacity (update slots index none) false)
      (without traits.equals list entry) := by
  intro isOrdered
  obtain ⟨order, arranged⟩ := ordered isOrdered
  have member := arranged.mem bound (by simp [found])
  have links : (destroyBucket traits table index).links =
      unlinkBucket table.links (.index index) := by
    simp [destroyBucket, ifOrdered_links, isOrdered]
  obtain ⟨listed, outside⟩ := listed_of_unlink arranged.listed member
  rw [← links] at listed outside
  have members : ∀ pointer, pointer ∈ order.filter (· ≠ .index index) ↔
      Occupied table.capacity (update slots index none) false pointer := by
    intro pointer
    rw [mem_filter, arranged.members]
    cases pointer with
    | bucketToMove => simp [Occupied]
    | index other =>
      by_cases here : other = index <;> simp [Occupied, here]
  refine ⟨_, listed, members, ?_, ?_⟩
  · have kept := places_without lawful.equivalent distinct arranged.entries member slot
    rw [← kept]
    apply map_congr_left
    intro pointer inRest
    have apart : pointer ≠ .index index := by simpa using (mem_filter.mp inRest).2
    simp [destroyBucket, apart]
  · intro other unoccupied
    apply outside (.index other) (by rwa [members])
    by_cases here : other = index
    · exact .inr (by rw [here])
    · exact .inl (arranged.linkless other (by simpa [Occupied, here] using unoccupied))

theorem shiftBucket_ordered (free : slots index = none) (sourceBound : source < table.capacity)
    (found : slots source = some entry) :
    Ordered traits (shiftBucket traits table source index probeLength) (Occupied table.capacity
        (update (update slots index (some entry)) source none) false) list := by
  intro isOrdered
  obtain ⟨order, arranged⟩ := ordered isOrdered
  have member := arranged.mem sourceBound (by simp [found])
  have fresh := arranged.not_mem free
  have apart : source ≠ index := by
    rintro rfl
    simp [free] at found
  obtain ⟨listed, outside, cleared⟩ := listed_of_shift
    (clearLinks (table.moveBucket (.index source) (.index index)).links (.index source))
    arranged.listed member fresh rfl rfl
    (by intro pointer; simp [clearLinks, moveBucket, setLinks])
    (by intro pointer; simp [clearLinks, moveBucket, setLinks])
  have links : (shiftBucket traits table source index probeLength).links = updateBucketNeighbors
        (clearLinks (table.moveBucket (.index source) (.index index)).links
          (.index source)) (.index index) := by
    simp [shiftBucket, ifOrdered_links, isOrdered]
  rw [← links] at listed outside cleared
  refine ⟨_, arranged.rename listed ?_ ?_ outside member fun _ => cleared⟩
  · intro pointer inOrder
    have notTarget : pointer ≠ .index index := fun same => fresh (same ▸ inOrder)
    by_cases here : pointer = .index source
    · simp [shiftBucket, here, renamed]
    · simp [shiftBucket, here, notTarget, renamed]
  · intro pointer
    cases pointer with
    | bucketToMove => simp [Occupied, renamed]
    | index other =>
      by_cases isSource : other = source
      · simp [Occupied, renamed, isSource, free]
      · by_cases isTarget : other = index
        · simp [Occupied, renamed, isTarget, apart.symm, bound, sourceBound, found]
        · simp [Occupied, renamed, isSource, isTarget]

end

end

end HashTable

end MixUpOS.AK
