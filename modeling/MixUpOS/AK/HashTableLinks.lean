import MixUpOS.AK.HashTable
import Mathlib.Logic.Equiv.Basic

/-!
# The list of an ordered hash table

What the pointer patches of insertion and deletion do to the list of buckets.
A bucket that is moved or swapped keeps its place in the list under the name
of its new place, also where its neighbour in the list is the other bucket of
the swap.
-/

namespace MixUpOS.AK.HashTable

open Library Library.LinkedSequences

section

variable {links : Links BucketPointer} {left right : BucketPointer}

theorem relinkLeftPrevious_eq : let later := relinkLeftPrevious links left right
    (∀ pointer, later.next pointer =
      if links.previous left = some left ∧ pointer = right ∨ links.previous left ≠ some left ∧
            links.previous left = some pointer then some left
      else links.next pointer) ∧
    (∀ pointer, later.previous pointer =
      if links.previous left = some left ∧ pointer = left then some right
      else links.previous pointer) ∧
    later.head = links.head ∧ later.tail = links.tail := by
  unfold relinkLeftPrevious
  grind

theorem relinkLeftNext_eq : let later := relinkLeftNext links left right
    (∀ pointer, later.previous pointer =
      if links.next left = some left ∧ pointer = right ∨ links.next left ≠ some left ∧
            links.next left = some pointer then some left
      else links.previous pointer) ∧
    (∀ pointer, later.next pointer =
      if links.next left = some left ∧ pointer = left then some right
      else links.next pointer) ∧
    later.head = links.head ∧ later.tail = links.tail := by
  unfold relinkLeftNext
  grind

theorem relinkRightPrevious_eq : let later := relinkRightPrevious links left right
    (∀ pointer, later.next pointer =
      if links.previous right = some pointer ∧ pointer ≠ left
      then some right else links.next pointer) ∧
    (∀ pointer, later.previous pointer = links.previous pointer) ∧
    later.head = links.head ∧ later.tail = links.tail := by
  unfold relinkRightPrevious
  grind

theorem relinkRightNext_eq : let later := relinkRightNext links left right
    (∀ pointer, later.previous pointer =
      if links.next right = some pointer ∧ pointer ≠ left
      then some right else links.previous pointer) ∧
    (∀ pointer, later.next pointer = links.next pointer) ∧
    later.head = links.head ∧ later.tail = links.tail := by
  unfold relinkRightNext
  grind

theorem swapped_ends : let later := updateCollectionForSwappedBuckets links left right
    later.head = swappedEnd left right links.head ∧
      later.tail = swappedEnd left right links.tail := by
  simp [updateCollectionForSwappedBuckets, relinkRightNext_eq, relinkRightPrevious_eq,
    relinkLeftNext_eq, relinkLeftPrevious_eq]

/-- What holds of the links after the contents of two buckets were swapped,
or one was copied to the other.  A bucket points to itself where it pointed to
the other one. -/
structure Swapped (links : Links BucketPointer) (left right : BucketPointer) : Prop where
  apart : left ≠ right
  previousLeft : links.previous left ≠ some right
  nextLeft : links.next left ≠ some right
  rightAfterLeft : links.next right = some right ↔ links.previous left = some left
  leftAfterRight : links.previous right = some right ↔ links.next left = some left

theorem Swapped.links_eq (swapped : Swapped links left right) :
    let later := updateCollectionForSwappedBuckets links left right
    (∀ pointer, later.next pointer =
      if pointer = left then
        if links.next left = some left then some right else links.next left
      else if pointer = right then
        if links.previous left = some left then some left else links.next right
      else if links.previous right = some pointer then some right
      else if links.previous left = some pointer then some left
      else links.next pointer) ∧
    ∀ pointer, later.previous pointer =
      if pointer = left then
        if links.previous left = some left then some right else links.previous left
      else if pointer = right then
        if links.next left = some left then some left else links.previous right
      else if links.next right = some pointer then some right
      else if links.next left = some pointer then some left
      else links.previous pointer := by
  obtain ⟨apart, previousLeft, nextLeft, rightAfterLeft, leftAfterRight⟩ := swapped
  simp only [updateCollectionForSwappedBuckets, relinkRightNext_eq, relinkRightPrevious_eq,
    relinkLeftNext_eq, relinkLeftPrevious_eq, Links.setTail_next, Links.setTail_previous,
    Links.setHead_next, Links.setHead_previous]
  grind

end

/-- A bucket that the patches did not touch. -/
def SameLinks (later links : Links BucketPointer) (pointer : BucketPointer) : Prop :=
  later.previous pointer = links.previous pointer ∧ later.next pointer = links.next pointer

/-- The places of two buckets exchanged. -/
def renamed (left right pointer : BucketPointer) : BucketPointer :=
  if pointer = left then right
  else if pointer = right then left else pointer

theorem renamed_renamed : renamed left right (renamed left right pointer) = pointer := by
  grind [renamed]

theorem renamed_injective : Function.Injective (renamed left right) :=
  Function.LeftInverse.injective fun _ => renamed_renamed

theorem swappedEnd_eq (endOfList : Option BucketPointer) :
    swappedEnd left right endOfList = endOfList.map (renamed left right) := by
  cases endOfList with
  | none => rfl
  | some pointer => grind [swappedEnd, renamed]

section

variable {links : Links BucketPointer}
/-- The left bucket is in the list and was copied to the right one.  If the
right one is in the list as well, the contents were swapped. -/
theorem listed_of_swap (moved : Links BucketPointer) (listed : Listed links order)
    (apart : left ≠ right) (leftMember : left ∈ order)
    (isOrigin : right ∈ order ∧ origin = right ∨ right ∉ order ∧ origin = left)
    (head : moved.head = links.head) (tail : moved.tail = links.tail)
    (next : ∀ pointer, moved.next pointer = links.next
      (if pointer = left then origin else if pointer = right then left else pointer))
    (previous : ∀ pointer, moved.previous pointer = links.previous
      (if pointer = left then origin else if pointer = right then left else pointer)) :
    Listed (updateCollectionForSwappedBuckets moved left right) (order.map (renamed left right)) ∧
      ∀ pointer, pointer ∉ order → pointer ≠ right →
        SameLinks (updateCollectionForSwappedBuckets moved left right) links pointer := by
  have originMember : origin ∈ order := by grind
  have swapped : Swapped moved left right := by
    have notItself := listed.next_ne originMember
    have notItsPrevious := listed.previous_ne originMember
    have toRight := listed.next_eq_some_iff leftMember right
    have fromRight := listed.previous_eq_some_iff leftMember right
    refine ⟨apart, ?_, ?_, ?_, ?_⟩ <;> grind
  obtain ⟨nextEq, previousEq⟩ := swapped.links_eq
  refine ⟨listed.rename renamed_injective ?_ ?_ ?_ ?_, ?_⟩
  · rw [swapped_ends.1, swappedEnd_eq, head]
  · rw [swapped_ends.2, swappedEnd_eq, tail]
  · intro pointer member
    have toLeft := listed.next_eq_some_iff member left
    have toRight := listed.next_eq_some_iff member right
    have notItself := listed.next_ne member
    by_cases isLeft : pointer = left <;>
      rcases isOrigin with ⟨inOrder, rfl⟩ | ⟨fresh, rfl⟩ <;>
      cases follows : links.next pointer <;> grind [renamed]
  · intro pointer member
    have toLeft := listed.previous_eq_some_iff member left
    have toRight := listed.previous_eq_some_iff member right
    have notItself := listed.previous_ne member
    by_cases isLeft : pointer = left <;>
      rcases isOrigin with ⟨inOrder, rfl⟩ | ⟨fresh, rfl⟩ <;>
      cases follows : links.previous pointer <;> grind [renamed]
  · intro pointer outside notRight
    have beforeLeft := listed.previous_eq_some_iff leftMember pointer
    have afterLeft := listed.next_eq_some_iff leftMember pointer
    have beforeOrigin := listed.previous_eq_some_iff originMember pointer
    have afterOrigin := listed.next_eq_some_iff originMember pointer
    rw [SameLinks]
    grind

end

section

variable {links : Links BucketPointer}
variable {bucket : BucketPointer}

theorem updateBucketNeighbors_eq (notItself : links.previous bucket ≠ some bucket) :
    let later := updateBucketNeighbors links bucket
    (∀ pointer, later.next pointer =
      if links.previous bucket = some pointer then some bucket else links.next pointer) ∧
    (∀ pointer, later.previous pointer =
      if links.next bucket = some pointer then some bucket else links.previous pointer) ∧
    later.head = (if links.previous bucket = none then some bucket else links.head) ∧
    later.tail = if links.next bucket = none then some bucket else links.tail := by
  unfold updateBucketNeighbors attachBackward attachForward
  cases before : links.previous bucket <;> cases after : links.next bucket <;> grind

/-- The source is in the list and was moved to the target. -/
theorem listed_of_shift (moved : Links BucketPointer) (listed : Listed links order)
    (member : source ∈ order) (fresh : target ∉ order)
    (head : moved.head = links.head) (tail : moved.tail = links.tail)
    (next : ∀ pointer, moved.next pointer =
      if pointer = source then none
      else if pointer = target then links.next source
      else links.next pointer)
    (previous : ∀ pointer, moved.previous pointer =
      if pointer = source then none
      else if pointer = target then links.previous source
      else links.previous pointer) :
    Listed (updateBucketNeighbors moved target) (order.map (renamed source target)) ∧
      (∀ pointer, pointer ∉ order → pointer ≠ target →
        SameLinks (updateBucketNeighbors moved target) links pointer) ∧
      (updateBucketNeighbors moved target).previous source = none ∧
        (updateBucketNeighbors moved target).next source = none := by
  have apart : target ≠ source := by
    rintro rfl
    exact fresh member
  have atTarget : moved.previous target = links.previous source ∧
      moved.next target = links.next source := by
    simp [previous, next, apart]
  have notTarget := listed.previous_eq_some_iff member target
  have notNextTarget := listed.next_eq_some_iff member target
  have notItself : moved.previous target ≠ some target := by
    simp [atTarget.1, notTarget, fresh]
  have isHead := listed.head_eq_some_iff member
  have isTail := listed.tail_eq_some_iff member
  obtain ⟨nextEq, previousEq, headEq, tailEq⟩ := updateBucketNeighbors_eq notItself
  refine ⟨listed.rename renamed_injective ?_ ?_ ?_ ?_, ?_, ?_⟩
  · have headMember := @listed.head_mem
    cases first : links.head <;> grind [renamed]
  · have tailMember := @listed.tail_mem
    cases last : links.tail <;> grind [renamed]
  · intro pointer inOrder
    have toSource := listed.next_eq_some_iff inOrder source
    have notToTarget := listed.next_eq_some_iff inOrder target
    have notNext := listed.next_ne member
    rw [nextEq]
    cases follows : links.next pointer <;> grind [renamed]
  · intro pointer inOrder
    have notHere : pointer ≠ target := fun same => fresh (same ▸ inOrder)
    have toSource := listed.previous_eq_some_iff inOrder source
    have notToTarget := listed.previous_eq_some_iff inOrder target
    have notPrevious := listed.previous_ne member
    cases follows : links.previous pointer <;> grind [renamed]
  · intro pointer outside notHere
    have notSource : pointer ≠ source := fun same => outside (same ▸ member)
    rw [SameLinks, previousEq, nextEq, atTarget.1, atTarget.2, previous, next]
    simp [listed.previous_eq_some_iff member, listed.next_eq_some_iff member, outside, notSource,
      notHere]
  · rw [previousEq, nextEq, atTarget.1, atTarget.2, previous, next]
    simp [listed.previous_ne member, listed.next_ne member]

theorem unlinkBucket_eq (notItself : links.previous bucket ≠ some bucket) :
    let later := unlinkBucket links bucket
    (∀ pointer, later.next pointer =
      if pointer = bucket then none
      else if links.previous bucket = some pointer then links.next bucket
      else links.next pointer) ∧
    (∀ pointer, later.previous pointer =
      if pointer = bucket then none
      else if links.next bucket = some pointer then links.previous bucket
      else links.previous pointer) ∧
    later.head = (if links.previous bucket = none then links.next bucket else links.head) ∧
    later.tail = if links.next bucket = none then links.previous bucket else links.tail := by
  unfold unlinkBucket clearLinks unlinkBackward unlinkForward
  cases before : links.previous bucket <;> cases after : links.next bucket <;> grind

theorem listed_of_unlink (listed : Listed links order) (member : bucket ∈ order) :
    Listed (unlinkBucket links bucket) (order.filter (· ≠ bucket)) ∧
      ∀ pointer, pointer ∉ order.filter (· ≠ bucket) →
        links.previous pointer = none ∧ links.next pointer = none ∨ pointer = bucket →
        (unlinkBucket links bucket).previous pointer = none ∧
          (unlinkBucket links bucket).next pointer = none := by
  obtain ⟨nextEq, previousEq, headEq, tailEq⟩ := unlinkBucket_eq (listed.previous_ne member)
  refine ⟨listed.without ?_ ?_ member ?_ ?_, ?_⟩
  · rw [headEq]
    simp [listed.head_eq_some_iff member]
  · rw [tailEq]
    simp [listed.tail_eq_some_iff member]
  · intro other inOrder apart
    rw [nextEq]
    simp [apart, listed.next_eq_some_iff inOrder, member]
  · intro other inOrder apart
    rw [previousEq]
    simp [apart, listed.next_eq_some_iff member, inOrder]
  · intro pointer outside linkless
    rw [nextEq, previousEq]
    by_cases here : pointer = bucket
    · simp [here]
    have notMember : pointer ∉ order := by
      intro inOrder
      exact outside (by simp [inOrder, here])
    simpa [here, listed.previous_eq_some_iff member, listed.next_eq_some_iff member, notMember]
      using linkless

theorem listed_of_new (listed : Listed links order) (fresh : bucket ∉ order)
    (noNext : links.next bucket = none) (noPrevious : order = [] → links.previous bucket = none) :
    Listed (updateCollectionForNewBucket links bucket) (order ++ [bucket]) ∧
      ∀ pointer, pointer ∉ order → pointer ≠ bucket →
        SameLinks (updateCollectionForNewBucket links bucket) links pointer := by
  unfold updateCollectionForNewBucket
  cases order with
  | nil =>
    have noHead : links.head = none := by simpa using listed.head
    have noTail : links.tail = none := by simpa using listed.tail
    rw [noHead]
    refine ⟨listed.concat fresh ?_ ?_ ?_ ?_ ?_ ?_, ?_⟩
    · simp [noHead]
    · simp
    · simp
    · simpa using noNext
    · simp
    · simpa [noTail] using noPrevious rfl
    · simp [SameLinks]
  | cons first rest =>
    obtain ⟨last, isLast⟩ : ∃ last, links.tail = some last := by
      rw [listed.tail]
      exact ⟨_, List.getLast?_eq_some_getLast (by simp)⟩
    have isHead : links.head = some first := by simpa using listed.head
    have lastMember := listed.tail_mem isLast
    have apart : bucket ≠ last := fun same => fresh (same ▸ lastMember)
    rw [isHead, isLast]
    refine ⟨listed.concat fresh ?_ ?_ ?_ ?_ ?_ ?_, ?_⟩
    · simp [isHead]
    · simp
    · intro other _
      simp [isLast, eq_comm]
    · simpa [apart] using noNext
    · intro other member
      have notNew : other ≠ bucket := fun same => fresh (same ▸ member)
      simp [notNew]
    · simp [isLast]
    · intro pointer outside notNew
      have notLast : pointer ≠ last := fun same => outside (same ▸ lastMember)
      simp [SameLinks, notNew, notLast]

end

end MixUpOS.AK.HashTable
