import MixUpOS.AK.StdLibExtras

/-!
# Bounds by binary search

The search reports a nearby index: the first one whose element does not compare
as below the needle, or the last one of the container.  For an empty container
it reports zero, and the functions that use it do not look at the size.
-/

namespace MixUpOS.AK

open List Option

section

variable {α : Type} (comparator : α → α → Int) (haystack : List α) (needle : α)

/-- The loop of `binary_search`, where `low` does not pass `high`.  An access
outside the container gives `none`. -/
def searchBetween (low high : Nat) : Option Nat :=
  if low < high then do
    let middle := low + (high - low) / 2
    let element ← haystack[middle]?
    if comparator needle element ≤ 0 then searchBetween low middle
    else searchBetween (middle + 1) high
  else some high
termination_by high - low

/-- The nearby index.  The pointer that the last access decides on is not used. -/
def binarySearch : Option Nat :=
  if haystack.length = 0 then some 0
  else do
    let nearby ← searchBetween comparator haystack needle 0 (haystack.length - 1)
    let _ ← haystack[nearby]?
    return nearby

/-- What `lower_bound` and `upper_bound` do with their comparators. -/
def boundBy (isPast : Int → Bool) : Option (Option Nat) := do
  let index ← binarySearch comparator haystack needle
  if index = wordPred haystack.length then
    let element ← haystack[index]?
    return if isPast (comparator needle element) then none else some index
  else return some index

/-- The index that is returned is the only one whose element passes the test
such that no earlier one does. -/
def Answers (call : Option (Option Nat)) (earlier : Nat → Nat → Prop) (passes : α → Prop) : Prop :=
  ∃ answer, call = some answer ∧ ∀ index, answer = some index ↔
    (∃ element ∈ haystack[index]?, passes element) ∧
      ∀ other, earlier other index → ∀ element ∈ haystack[other]?, ¬ passes element

/-- The elements in front of the index are those that compare as below the needle. -/
structure SplitsAt (point : Nat) : Prop where
  bound : point ≤ haystack.length
  below_iff : ∀ index element, haystack[index]? = some element →
    (0 < comparator needle element ↔ index < point)

variable {comparator haystack needle} {low high point : Nat}
  (splits : SplitsAt comparator haystack needle point)

namespace SplitsAt

include splits

theorem searchBetween_eq (order : low ≤ high) (inFront : low ≤ point)
    (inside : high < haystack.length) :
    searchBetween comparator haystack needle low high = some (min point high) := by
  fun_induction searchBetween comparator haystack needle low high with
  | case1 low high less middle below above =>
    have middleInside : middle < haystack.length := by omega
    have found := getElem?_eq_getElem middleInside
    have place := splits.below_iff middle _ found
    rw [found, bind_eq_bind, bind_some]
    split_ifs with notPositive
    · grind
    · exact above (by omega) (by omega) inside
  | case2 => grind

variable (nonempty : 0 < haystack.length)

include nonempty

theorem binarySearch_eq : ∃ element, haystack[min point (haystack.length - 1)]? = some element ∧
    binarySearch comparator haystack needle = some (min point (haystack.length - 1)) := by
  have found := @getElem?_eq_getElem _ haystack (min point (haystack.length - 1)) (by omega)
  refine ⟨_, found, ?_⟩
  rw [binarySearch, if_neg (by omega), splits.searchBetween_eq (by omega) (by omega) (by omega),
    bind_eq_bind, bind_some, found]
  rfl

theorem answers_boundBy {isPast : Int → Bool} {passes : α → Prop}
    (addressable : haystack.length < 2 ^ 64)
    (past : ∀ element, isPast (comparator needle element) ↔ 0 < comparator needle element)
    (passing : ∀ element, passes element ↔ comparator needle element ≤ 0) :
    Answers haystack (boundBy comparator haystack needle isPast) (· < ·) passes := by
  obtain ⟨_, found, searched⟩ := splits.binarySearch_eq nonempty
  have ⟨bound, below_iff⟩ := splits
  rw [boundBy, wordPred_eq nonempty addressable.le]
  refine ⟨if point = haystack.length then none else some point, by grind, ?_⟩
  grind

end SplitsAt

end

variable {α : Type} [LinearOrder α]

structure SortedContainer (α : Type) [LinearOrder α] where
  items : List α
  sorted : items.Pairwise (· ≤ ·)
  addressable : items.length < 2 ^ 64

def defaultComparator (lhs rhs : α) : Int :=
  if rhs < lhs then 1 else if lhs < rhs then -1 else 0

def upperBoundComparator (lhs rhs : α) : Int := if rhs ≤ lhs then 1 else -1

variable (haystack : List α) (needle : α)

def lowerBound : Option (Option Nat) := boundBy defaultComparator haystack needle (0 < ·)

def upperBound : Option (Option Nat) := boundBy upperBoundComparator haystack needle (0 ≤ ·)

def strictLowerBound : Option (Option Nat) := do
  let nearby ← binarySearch defaultComparator haystack needle
  let index ← if 0 < nearby then do
      let element ← haystack[nearby]?
      pure (if defaultComparator needle element ≤ 0 then nearby - 1 else nearby)
    else pure nearby
  if index = 0 then
    let element ← haystack[index]?
    return if defaultComparator needle element ≤ 0 then none else some index
  else return some index

variable {haystack needle}

theorem exists_splitsAt (sorted : haystack.Pairwise (· ≤ ·)) (comparator : α → α → Int)
    (closed : ∀ lower upper, lower ≤ upper → comparator needle lower ≤ 0 →
      comparator needle upper ≤ 0) : ∃ point, SplitsAt comparator haystack needle point := by
  induction haystack with
  | nil => exact ⟨0, le_rfl, nofun⟩
  | cons first rest ih =>
    obtain ⟨least, sorted⟩ := pairwise_cons.mp sorted
    obtain ⟨point, bound, below_iff⟩ := ih sorted
    by_cases notPositive : comparator needle first ≤ 0
    · refine ⟨0, Nat.zero_le _, fun index element found => ?_⟩
      grind
    · refine ⟨point + 1, Nat.succ_le_succ bound, fun index element found => ?_⟩
      grind

theorem SplitsAt.answers_strictLowerBound {point : Nat} (nonempty : 0 < haystack.length)
    (splits : SplitsAt defaultComparator haystack needle point)
    (default : ∀ element, needle ≤ element ↔ defaultComparator needle element ≤ 0) :
    Answers haystack (strictLowerBound haystack needle) (· > ·) (· < needle) := by
  obtain ⟨_, found, searched⟩ := splits.binarySearch_eq nonempty
  have ⟨bound, below_iff⟩ := splits
  rw [strictLowerBound, bind_eq_bind]
  refine ⟨if point = 0 then none else some (point - 1), by grind, fun index => ?_⟩
  cases point with
  | zero => grind
  | succ last =>
    have foundLast := getElem?_eq_getElem (l := haystack) (i := last) (by omega)
    constructor
    · rintro ⟨⟩
      exact ⟨⟨_, foundLast, by grind⟩, by grind⟩
    · rintro ⟨⟨element, here, less⟩, isLast⟩
      by_contra differ
      exact isLast last (by grind) _ foundLast (by grind)

/-- Each bound is the one that it should be, for any container but an empty one. -/
theorem bounds_iff (container : SortedContainer α) (needle : α) :
    (Answers container.items (lowerBound container.items needle) (· < ·) (needle ≤ ·) ∧
      Answers container.items (strictLowerBound container.items needle) (· > ·) (· < needle) ∧
      Answers container.items (upperBound container.items needle) (· < ·) (needle < ·)) ↔
      container.items ≠ [] := by
  obtain ⟨items, sorted, addressable⟩ := container
  constructor
  · rintro ⟨⟨answer, isLower, isFirst⟩, _⟩ rfl
    simp [lowerBound, boundBy, binarySearch, wordPred] at isLower
    simpa using (isFirst 0).mp isLower.symm
  · intro nonempty
    have positive := length_pos_iff.mpr nonempty
    have default (element : α) : needle ≤ element ↔ defaultComparator needle element ≤ 0 := by
      grind [defaultComparator]
    have upper (element : α) : needle < element ↔ upperBoundComparator needle element ≤ 0 := by
      grind [upperBoundComparator]
    obtain ⟨_, splits⟩ := @exists_splitsAt _ _ _ needle sorted defaultComparator (by grind)
    obtain ⟨_, upperSplits⟩ := @exists_splitsAt _ _ _ needle sorted upperBoundComparator (by grind)
    exact ⟨splits.answers_boundBy positive addressable (by simp) default,
      splits.answers_strictLowerBound positive default,
      upperSplits.answers_boundBy positive addressable (by grind [upperBoundComparator]) upper⟩

/-- The needle occurs twice. -/
theorem bounds_iff_twice :
    Answers [1, 3, 3, 5] (lowerBound [1, 3, 3, 5] 3) (· < ·) (3 ≤ ·) ∧
      Answers [1, 3, 3, 5] (strictLowerBound [1, 3, 3, 5] 3) (· > ·) (· < 3) ∧
      Answers [1, 3, 3, 5] (upperBound [1, 3, 3, 5] 3) (· < ·) (3 < ·) :=
  (bounds_iff ⟨[1, 3, 3, 5], by decide, by decide⟩ 3).mpr (by simp)

theorem lowerBound_empty : lowerBound [] 0 = some (some 0) ∧ strictLowerBound [] 0 = none ∧
    upperBound [] 0 = some (some 0) := by
  decide +kernel

end MixUpOS.AK
