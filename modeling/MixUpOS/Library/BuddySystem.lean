import Mathlib.Data.List.Nodup
import Mathlib.Algebra.Order.Ring.Int

/-!
# The binary buddy system

Units are numbered from zero.  Block `number` of order `order` is the
naturally aligned run of the `2 ^ order` units `unit` with
`unit / 2 ^ order = number`, so that blocks of one order never overlap and
the two halves of a block are the blocks `2 * number` and `2 * number + 1`
one order below.

A state of the system is the list of free block numbers of every order.
`allocate` splits the smallest sufficient block, `release` merges buddies as
long as it can.  `Invariant` is what both keep: free blocks are disjoint and
no two buddies are free at once.
-/

namespace MixUpOS.Library.Buddy

open Function

abbrev FreeLists := Nat → List Nat

/-- The other half of the parent block. -/
def buddy (number : Nat) : Nat :=
  if number % 2 = 0 then number + 1 else number - 1

/-- Take a block of the given order, splitting a larger one if needed.  The
first half of every split block stays free. -/
def allocate (maxOrder : Nat) (free : FreeLists) (order : Nat) : Option (FreeLists × Nat) :=
  if maxOrder < order then none
  else
    match free order with
    | number :: rest => some (Function.update free order rest, number)
    | [] =>
      match allocate maxOrder free (order + 1) with
      | none => none
      | some (split, number) =>
        some (Function.update split order [2 * number], 2 * number + 1)
termination_by maxOrder + 1 - order

/-- Give a block back, merging it with its buddy as long as that is free. -/
def release (maxOrder : Nat) (free : FreeLists) (order number : Nat) : Option FreeLists :=
  if maxOrder < order then none
  else if buddy number ∈ free order then
    release maxOrder (Function.update free order ((free order).erase (buddy number)))
      (order + 1) (number / 2)
  else some (Function.update free order (number :: free order))
termination_by maxOrder + 1 - order

def FreeUnit (free : FreeLists) (unit : Nat) : Prop := ∃ order, unit / 2 ^ order ∈ free order

/-- The free lists describe disjoint, fully coalesced blocks of a system of
`2 ^ top` units. -/
structure Invariant (top : Nat) (free : FreeLists) : Prop where
  inside : ∀ {order number}, number ∈ free order → order ≤ top ∧ number < 2 ^ (top - order)
  unique : ∀ unit {first second}, unit / 2 ^ first ∈ free first →
    unit / 2 ^ second ∈ free second → first = second
  coalesced : ∀ {order pair}, 2 * pair ∈ free order → 2 * pair + 1 ∉ free order
  nodup : ∀ order, (free order).Nodup

theorem div_pow_succ (unit order : Nat) : unit / 2 ^ (order + 1) = unit / 2 ^ order / 2 := by
  rw [Nat.pow_succ, Nat.div_div_eq_div_mul]

theorem first_unit_div (number order : Nat) : number * 2 ^ order / 2 ^ order = number :=
  Nat.mul_div_cancel _ (Nat.two_pow_pos order)

theorem pow_sub_succ (below : order + 1 ≤ top) :
    2 ^ (top - order) = 2 * 2 ^ (top - (order + 1)) := by
  rw [← Nat.pow_succ']
  congr 1
  omega

theorem mem_update {list : List Nat} {order : Nat} : number ∈ update free order list found ↔
      found = order ∧ number ∈ list ∨ found ≠ order ∧ number ∈ free found := by
  rw [update_apply]
  split_ifs with same <;> simp [same]

theorem half_eq_iff (number other : Nat) :
    other / 2 = number / 2 ↔ other = number ∨ other = buddy number := by
  unfold buddy
  split <;> omega

theorem buddy_ne (number : Nat) : buddy number ≠ number := by
  unfold buddy
  split <;> omega

namespace Invariant

variable {unit : Nat}

section

variable (invariant : Invariant top free)

include invariant

theorem buddy_notMem (member : number ∈ free order) : buddy number ∉ free order := by
  intro buddyMember
  unfold buddy at buddyMember
  split at buddyMember
  · have even : 2 * (number / 2) = number := by omega
    exact invariant.coalesced (even.symm ▸ member) (even.symm ▸ buddyMember)
  · have odd : 2 * (number / 2) + 1 = number := by omega
    have even : 2 * (number / 2) = number - 1 := by omega
    exact invariant.coalesced (even.symm ▸ buddyMember) (odd.symm ▸ member)

theorem mono (sublist : ∀ order, (smaller order).Sublist (free order)) : Invariant top smaller where
  inside member := invariant.inside ((sublist _).subset member)
  unique unit _ _ first second := invariant.unique unit
    ((sublist _).subset first) ((sublist _).subset second)
  coalesced even odd := invariant.coalesced ((sublist _).subset even) ((sublist _).subset odd)
  nodup order := (sublist order).nodup (invariant.nodup order)

theorem freeUnit_erase (member : number ∈ free order) :
    FreeUnit (update free order ((free order).erase number)) unit ↔
      FreeUnit free unit ∧ unit / 2 ^ order ≠ number := by
  simp only [FreeUnit, mem_update, (invariant.nodup order).mem_erase_iff]
  constructor
  · rintro ⟨found, ⟨rfl, differ, inside⟩ | ⟨apart, inside⟩⟩
    · exact ⟨⟨found, inside⟩, differ⟩
    · refine ⟨⟨found, inside⟩, ?_⟩
      intro equality
      exact apart (invariant.unique unit inside (equality ▸ member))
  · rintro ⟨⟨found, inside⟩, differ⟩
    by_cases same : found = order
    · exact ⟨found, .inl ⟨same, same ▸ differ, same ▸ inside⟩⟩
    · exact ⟨found, .inr ⟨same, inside⟩⟩

theorem erase (order number : Nat) :
    Invariant top (update free order ((free order).erase number)) := by
  refine invariant.mono ?_
  intro found
  by_cases same : found = order
  · subst same
    rw [update_self]
    exact List.erase_sublist
  · rw [update_of_ne same]

end

theorem freeUnit_cons (free : FreeLists) (order number unit : Nat) :
    FreeUnit (update free order (number :: free order)) unit ↔
      FreeUnit free unit ∨ unit / 2 ^ order = number := by
  simp only [FreeUnit, mem_update, List.mem_cons]
  constructor
  · rintro ⟨found, ⟨rfl, equality | inside⟩ | ⟨_, inside⟩⟩
    · exact .inr equality
    all_goals exact .inl ⟨found, inside⟩
  · rintro (⟨found, inside⟩ | equality)
    · by_cases same : found = order
      · exact ⟨found, .inl ⟨same, .inr (same ▸ inside)⟩⟩
      · exact ⟨found, .inr ⟨same, inside⟩⟩
    · exact ⟨order, .inl ⟨rfl, .inl equality⟩⟩

/-- A block whose units are all in use and whose buddy is not free can join
its free list. -/
theorem cons (invariant : Invariant top free)
    (orderBound : order ≤ top) (numberBound : number < 2 ^ (top - order))
    (inUse : ∀ unit, unit / 2 ^ order = number → ¬FreeUnit free unit)
    (buddyInUse : buddy number ∉ free order) :
    Invariant top (update free order (number :: free order)) := by
  have absent : number ∉ free order := by
    intro member
    refine inUse (number * 2 ^ order) (first_unit_div number order) ⟨order, ?_⟩
    rw [first_unit_div]
    exact member
  have cases : ∀ {found other}, other ∈ update free order (number :: free order) found →
      other ∈ free found ∨ found = order ∧ other = number := by
    intro found other member
    rw [mem_update, List.mem_cons] at member
    rcases member with ⟨rfl, equality | old⟩ | ⟨_, old⟩
    · exact .inr ⟨rfl, equality⟩
    all_goals exact .inl old
  constructor
  · intro found other member
    rcases cases member with old | ⟨rfl, rfl⟩
    · exact invariant.inside old
    · exact ⟨orderBound, numberBound⟩
  · intro unit first second firstMember secondMember
    rcases cases firstMember with firstOld | ⟨rfl, firstNew⟩
    · rcases cases secondMember with secondOld | ⟨rfl, secondNew⟩
      · exact invariant.unique unit firstOld secondOld
      · exact absurd ⟨first, firstOld⟩ (inUse unit secondNew)
    · rcases cases secondMember with secondOld | ⟨rfl, _⟩
      · exact absurd ⟨second, secondOld⟩ (inUse unit firstNew)
      · rfl
  · intro found pair evenMember oddMember
    rcases cases evenMember with evenOld | ⟨rfl, evenNew⟩
    · rcases cases oddMember with oddOld | ⟨rfl, oddNew⟩
      · exact invariant.coalesced evenOld oddOld
      · have isBuddy : buddy number = 2 * pair := by
          unfold buddy
          split <;> omega
        exact buddyInUse (isBuddy ▸ evenOld)
    · rcases cases oddMember with oddOld | ⟨_, oddNew⟩
      · have isBuddy : buddy number = 2 * pair + 1 := by
          unfold buddy
          split <;> omega
        exact buddyInUse (isBuddy ▸ oddOld)
      · omega
  · intro found
    by_cases same : found = order
    · subst same
      rw [update_self]
      exact List.nodup_cons.mpr ⟨absent, invariant.nodup found⟩
    · rw [update_of_ne same]
      exact invariant.nodup found

end Invariant

/-- What a successful allocation did: it took exactly the units of the
returned block, all of which were free, and left the smaller orders alone. -/
structure Allocated (top : Nat) (free : FreeLists) (order : Nat)
    (result : FreeLists) (number : Nat) : Prop where
  invariant : Invariant top result
  orderBound : order ≤ top
  numberBound : number < 2 ^ (top - order)
  wasFree : ∀ unit, unit / 2 ^ order = number → FreeUnit free unit
  freeUnit_iff : ∀ unit, FreeUnit result unit ↔ FreeUnit free unit ∧ unit / 2 ^ order ≠ number
  below : ∀ smaller, smaller < order → result smaller = free smaller

section

variable {top maxOrder order number : Nat} {free result : FreeLists}

theorem allocated_of_head (invariant : Invariant top free) (list : free order = number :: rest) :
    Allocated top free order (update free order rest) number := by
  have member : number ∈ free order := by simp [list]
  have erased : (free order).erase number = rest := by simp [list]
  have result := invariant.erase order number
  obtain ⟨orderBound, numberBound⟩ := invariant.inside member
  rw [erased] at result
  refine ⟨result, orderBound, numberBound, ?_, ?_, ?_⟩
  · intro unit equality
    exact ⟨order, equality ▸ member⟩
  · intro unit
    rw [← erased]
    exact invariant.freeUnit_erase member
  · intro smaller isSmaller
    rw [update_of_ne (Nat.ne_of_lt isSmaller)]

theorem Allocated.half_inUse (above : Allocated top free (order + 1) result parent)
    (isHalf : half / 2 = parent) : ∀ unit, unit / 2 ^ order = half → ¬FreeUnit result unit := by
  intro unit equality isFree
  refine ((above.freeUnit_iff unit).mp isFree).2 ?_
  rw [div_pow_succ, equality, isHalf]

theorem allocated_of_split (empty : free order = [])
    (above : Allocated top free (order + 1) split parent) :
    Allocated top free order (update split order [2 * parent]) (2 * parent + 1) := by
  have splitEmpty : split order = [] := by rw [above.below order (Nat.lt_succ_self order), empty]
  have parentBound := above.numberBound
  have orderBound : order + 1 ≤ top := above.orderBound
  have width := pow_sub_succ orderBound
  have isHalf : 2 * parent / 2 = parent := by omega
  have joined := above.invariant.cons
    (by omega) (by omega) (above.half_inUse isHalf) (by simp [splitEmpty])
  rw [splitEmpty] at joined
  refine ⟨joined, by omega, by omega, ?_, ?_, ?_⟩
  · intro unit equality
    refine above.wasFree unit ?_
    rw [div_pow_succ]
    omega
  · intro unit
    have added := Invariant.freeUnit_cons split order (2 * parent) unit
    rw [splitEmpty] at added
    rw [added, above.freeUnit_iff, div_pow_succ]
    constructor
    · rintro (⟨isFree, otherParent⟩ | isFirst)
      · exact ⟨isFree, by omega⟩
      · refine ⟨above.wasFree unit ?_, by omega⟩
        rw [div_pow_succ]
        omega
    · rintro ⟨isFree, notSecond⟩
      by_cases sameParent : unit / 2 ^ order / 2 = parent
      · omega
      · exact .inl ⟨isFree, sameParent⟩
  · intro smaller isSmaller
    rw [update_of_ne (Nat.ne_of_lt isSmaller)]
    exact above.below smaller (by omega)

theorem allocate_spec (invariant : Invariant top free)
    (success : allocate maxOrder free order = some (result, number)) :
    Allocated top free order result number := by
  induction order using allocate.induct maxOrder free generalizing result number with
  | case1 order tooLarge =>
    rw [allocate, if_pos tooLarge] at success
    cases success
  | case2 order inRange first rest list =>
    rw [allocate, if_neg inRange, list] at success
    cases success
    exact allocated_of_head invariant list
  | case3 order inRange empty failed _ =>
    rw [allocate, empty] at success
    simp [failed] at success
  | case4 order inRange empty split parent found ih =>
    rw [allocate, if_neg inRange, empty] at success
    simp only [found, Option.some.injEq, Prod.mk.injEq] at success
    obtain ⟨rfl, rfl⟩ := success
    exact allocated_of_split empty (ih found)

theorem allocate_eq_none_iff : allocate maxOrder free order = none ↔
      ∀ larger, order ≤ larger → larger ≤ maxOrder → free larger = [] := by
  induction order using allocate.induct maxOrder free with
  | case1 order tooLarge =>
    rw [allocate, if_pos tooLarge]
    simp only [true_iff]
    intro larger above below
    omega
  | case2 order inRange first rest list =>
    rw [allocate, if_neg inRange, list]
    simp only [reduceCtorEq, false_iff]
    intro allEmpty
    have empty := allEmpty order (Nat.le_refl _) (by omega)
    simp [list] at empty
  | case3 order inRange empty failed ih =>
    rw [allocate, if_neg inRange, empty]
    simp only [failed, true_iff]
    intro larger above below
    rcases Nat.eq_or_lt_of_le above with rfl | strictlyAbove
    · exact empty
    · exact ih.mp failed larger strictlyAbove below
  | case4 order inRange empty split parent found ih =>
    rw [allocate, if_neg inRange, empty]
    simp only [found, reduceCtorEq, false_iff]
    intro allEmpty
    have failed := ih.mpr (fun larger above below => allEmpty larger (by omega) below)
    simp [failed] at found

/-- A fully free block lies in a free block of at least its order.  This is
where coalescing matters: two free halves would have been merged. -/
theorem Invariant.covering (invariant : Invariant top free)
    (allFree : ∀ unit, unit / 2 ^ order = number → FreeUnit free unit) :
    ∃ larger, order ≤ larger ∧ number / 2 ^ (larger - order) ∈ free larger := by
  induction order generalizing number with
  | zero =>
    obtain ⟨larger, member⟩ := allFree number (by simp)
    exact ⟨larger, Nat.zero_le _, by simpa using member⟩
  | succ order ih =>
    have halfFree : ∀ half, half / 2 = number → ∀ unit,
        unit / 2 ^ order = half → FreeUnit free unit := by
      intro half isHalf unit equality
      refine allFree unit ?_
      rw [div_pow_succ, equality, isHalf]
    have lift : ∀ half larger, half / 2 = number → order < larger →
        half / 2 ^ (larger - order) ∈ free larger →
        ∃ larger, order + 1 ≤ larger ∧ number / 2 ^ (larger - (order + 1)) ∈ free larger := by
      intro half larger isHalf above member
      refine ⟨larger, above, ?_⟩
      have width : larger - order = larger - (order + 1) + 1 := by omega
      rw [width, Nat.pow_succ', ← Nat.div_div_eq_div_mul, isHalf] at member
      exact member
    obtain ⟨first, firstAbove, firstMember⟩ := ih (halfFree (2 * number) (by omega))
    obtain ⟨second, secondAbove, secondMember⟩ := ih (halfFree (2 * number + 1) (by omega))
    rcases Nat.eq_or_lt_of_le firstAbove with rfl | firstStrict
    · rcases Nat.eq_or_lt_of_le secondAbove with rfl | secondStrict
      · simp only [Nat.sub_self, Nat.pow_zero, Nat.div_one] at firstMember secondMember
        exact absurd secondMember (invariant.coalesced firstMember)
      · exact lift _ second (by omega) secondStrict secondMember
    · exact lift _ first (by omega) firstStrict firstMember

/-- Allocation fails only when no block of that order is entirely free. -/
theorem allocate_eq_none_iff_no_free_block (invariant : Invariant top free)
    (topBound : top ≤ maxOrder) :
    allocate maxOrder free order = none ↔ ¬∃ number, (number + 1) * 2 ^ order ≤ 2 ^ top ∧
        ∀ unit, unit / 2 ^ order = number → FreeUnit free unit := by
  constructor
  · rintro failed ⟨number, _, allFree⟩
    obtain ⟨larger, above, member⟩ := invariant.covering allFree
    have below := (invariant.inside member).1
    have empty := allocate_eq_none_iff.mp failed larger above (by omega)
    simp [empty] at member
  · intro noBlock
    cases outcome : allocate maxOrder free order with
    | none => rfl
    | some pair =>
      obtain ⟨result, number⟩ := pair
      have done := allocate_spec invariant outcome
      refine absurd ⟨number, ?_, done.wasFree⟩ noBlock
      have fits : (number + 1) * 2 ^ order ≤ 2 ^ (top - order) * 2 ^ order :=
        Nat.mul_le_mul_right _ done.numberBound
      rwa [← Nat.pow_add, Nat.sub_add_cancel done.orderBound] at fits

/-- A block that may be given back: it lies in the system and none of its
units is free. -/
structure Releasable (top : Nat) (free : FreeLists) (order number : Nat) : Prop where
  invariant : Invariant top free
  orderBound : order ≤ top
  numberBound : number < 2 ^ (top - order)
  inUse : ∀ unit, unit / 2 ^ order = number → ¬FreeUnit free unit

theorem Releasable.merge (releasable : Releasable top free order number)
    (buddyFree : buddy number ∈ free order) :
    Releasable top (update free order ((free order).erase (buddy number)))
      (order + 1) (number / 2) := by
  have numberBound := releasable.numberBound
  have below : order + 1 ≤ top := by
    rcases Nat.eq_or_lt_of_le releasable.orderBound with rfl | strict
    · have buddyBound := (releasable.invariant.inside buddyFree).2
      have differ := buddy_ne number
      rw [Nat.sub_self] at numberBound buddyBound
      omega
    · exact strict
  have width := pow_sub_succ below
  refine ⟨releasable.invariant.erase order (buddy number), below, by omega, ?_⟩
  intro unit sameParent
  rw [releasable.invariant.freeUnit_erase buddyFree]
  rintro ⟨isFree, notBuddy⟩
  rw [div_pow_succ, half_eq_iff] at sameParent
  rcases sameParent with isNumber | isBuddy
  · exact releasable.inUse unit isNumber isFree
  · exact notBuddy isBuddy

/-- What giving a block back did. -/
structure Released (top : Nat) (free : FreeLists) (order number : Nat)
    (result : FreeLists) : Prop where
  invariant : Invariant top result
  freeUnit_iff : ∀ unit, FreeUnit result unit ↔ FreeUnit free unit ∨ unit / 2 ^ order = number

theorem release_spec (topBound : top ≤ maxOrder) (releasable : Releasable top free order number) :
    ∃ result, release maxOrder free order number = some result ∧
      Released top free order number result := by
  induction width : top + 1 - order generalizing free order number with
  | zero =>
    have orderBound := releasable.orderBound
    omega
  | succ rest ih =>
    by_cases buddyFree : buddy number ∈ free order
    · rw [release, if_neg (by omega), if_pos buddyFree]
      obtain ⟨result, success, merged⟩ := ih (releasable.merge buddyFree) (by omega)
      refine ⟨result, success, merged.invariant, ?_⟩
      intro unit
      rw [merged.freeUnit_iff, releasable.invariant.freeUnit_erase buddyFree, div_pow_succ,
        half_eq_iff]
      constructor
      · rintro (⟨isFree, _⟩ | isNumber | isBuddy)
        · exact .inl isFree
        · exact .inr isNumber
        · exact .inl ⟨order, isBuddy ▸ buddyFree⟩
      · rintro (isFree | isNumber)
        · by_cases isBuddy : unit / 2 ^ order = buddy number
          · exact .inr (.inr isBuddy)
          · exact .inl ⟨isFree, isBuddy⟩
        · exact .inr (.inl isNumber)
    · rw [release, if_neg (by omega), if_neg buddyFree]
      exact ⟨_, rfl, releasable.invariant.cons releasable.orderBound releasable.numberBound
        releasable.inUse buddyFree, Invariant.freeUnit_cons free order number⟩

end

end MixUpOS.Library.Buddy
