import MixUpOS.Kernel.Memory.AddressSpaceSplit

/-!
# Enumerating the regions that meet a range

`find_regions_intersecting` starts at the last region that begins at or below
the range, and stops early when the sizes it has collected equal the size of
the range.  Both can leave out regions; `Enumerable` says exactly when they do
not.
-/

namespace MixUpOS.Kernel.Memory

open Library Library.Programs VirtualRange List

namespace VirtualRange

variable {range : VirtualRange} {address size : Nat}

/-- What expanding to page boundaries returns. -/
structure Expanded (address size : Nat) (range : VirtualRange) : Prop where
  base_eq : range.base = address / pageSize * pageSize
  stop_eq : range.stop = (address + size + (pageSize - 1)) / pageSize * pageSize
  pages : range.PageAligned
  bounded : range.Bounded

theorem expandToPageBoundaries_spec (word : address < 2 ^ 64) (small : size < 2 ^ 64)
    (success : expandToPageBoundaries address size = .ok range) : Expanded address size range := by
  unfold expandToPageBoundaries offsetAddress at success
  split at success
  · cases success
  next noWrap =>
    have exactEnd : (address + size) % 2 ^ 64 = address + size := by omega
    rw [exactEnd] at success
    unfold pageRoundUp at success
    split at success
    · cases success
    next fits =>
      unfold pageSize at fits success
      cases success
      have low : address / 4096 * 4096 ≤ (address + size + 4095) / 4096 * 4096 := by omega
      have high : (address + size + 4095) / 4096 * 4096 % 2 ^ 64 =
          (address + size + 4095) / 4096 * 4096 := by omega
      have difference := addressDifference_eq low (by omega)
      constructor
      · rfl
      · unfold stop pageSize
        dsimp only
        rw [high]
        omega
      · unfold PageAligned pageSize
        dsimp only
        rw [high]
        omega
      · unfold Bounded
        dsimp only
        rw [high]
        omega

theorem Expanded.nonempty (expanded : Expanded address size range)
    (pos : 0 < size) : 0 < range.size := by
  have first := expanded.base_eq
  have last := expanded.stop_eq
  unfold stop pageSize at last
  unfold pageSize at first
  omega

end VirtualRange

namespace RegionTree

/-- The conditions under which the enumeration is complete: a region begins at
or below the range if any meets it, and no region that reaches into the range
from below leaves exactly as many bytes below it as the range has, unless it
is the only one. -/
structure Enumerable (tree : RegionTree) (range : VirtualRange) : Prop where
  anchored : (∃ region ∈ tree.regions, region.range.Meets range) →
    ∃ region ∈ tree.regions, region.base ≤ range.base
  unstopped : ∀ region ∈ tree.regions,
    region.base + range.size = range.base → range.base < region.stop →
    ∀ other ∈ tree.regions, other.range.Meets range → other = region

/-- What the enumeration returns. -/
structure Enumerates (tree : RegionTree) (range : VirtualRange) (regions : List Region) : Prop where
  sublist : regions.Sublist tree.regions
  meets : ∀ region ∈ regions, region.range.Meets range
  complete : (∀ region ∈ tree.regions, region.range.Meets range →
    region ∈ regions) ↔ tree.Enumerable range

section

variable {tree : RegionTree} {range : VirtualRange}

theorem WellPlaced.eq_of_contains (placed : tree.WellPlaced) (member : region ∈ tree.regions)
    (otherMember : other ∈ tree.regions) (above : region.base ≤ range.base)
    (below : range.stop ≤ region.stop) (meets : other.range.Meets range) : other = region := by
  obtain ⟨start, stop⟩ := meets
  change other.base < range.stop at start
  change range.base < other.stop at stop
  rcases placed.separated.apart otherMember member with
    same | before | after
  · exact same
  · omega
  · omega

theorem WellPlaced.enumerates_of_contains (placed : tree.WellPlaced)
    (member : region ∈ tree.regions) (nonempty : 0 < range.size)
    (above : region.base ≤ range.base) (below : range.stop ≤ region.stop) :
    tree.Enumerates range [region] := by
  have order : range.base < range.stop := Nat.lt_add_of_pos_right nonempty
  refine ⟨singleton_sublist.mpr member, ?_, ?_⟩
  · intro other otherMember
    rw [mem_singleton.mp otherMember]
    exact meets_of_contains nonempty above below
  · constructor
    · intro _
      refine ⟨fun _ => ⟨region, member, above⟩, ?_⟩
      intro lower lowerMember _ reaches other otherMember meets
      have lowerMeets : lower.range.Meets range := by
        refine ⟨?_, reaches⟩
        change lower.base < range.stop
        omega
      rw [placed.eq_of_contains member otherMember above below meets,
        placed.eq_of_contains member lowerMember above below lowerMeets]
    · intro _ other otherMember meets
      rw [placed.eq_of_contains member otherMember above below meets]
      exact mem_singleton_self _

end

end RegionTree

namespace AddressSpace

section

variable {range : VirtualRange}

theorem meets_iff_condition {region : Region}
    (regionBounded : region.range.Bounded) (bounded : range.Bounded) :
    (region.base < range.endAddress && region.range.endAddress > range.base) = true ↔
      region.range.Meets range := by
  rw [bounded.endAddress, regionBounded.endAddress]
  simp only [Bool.and_eq_true, decide_eq_true_iff]
  exact Iff.rfl

/-- All members of a list that meet the range. -/
structure Collected (range : VirtualRange) (regions result : List Region) : Prop where
  sublist : result.Sublist regions
  meets : ∀ region ∈ result, region.range.Meets range
  complete : ∀ region ∈ regions, region.range.Meets range → region ∈ result

theorem Collected.cons (collected : Collected range regions result)
    (meets : region.range.Meets range) :
    Collected range (region :: regions) (region :: result) := by
  refine ⟨collected.sublist.cons_cons region, ?_, ?_⟩
  · exact forall_mem_cons.mpr ⟨meets, collected.meets⟩
  · intro other member otherMeets
    rcases mem_cons.mp member with rfl | inRegions
    · exact mem_cons_self
    · exact mem_cons_of_mem _ (collected.complete other inRegions otherMeets)

theorem Collected.skip (collected : Collected range regions result)
    (misses : ¬ region.range.Meets range) : Collected range (region :: regions) result := by
  refine ⟨collected.sublist.cons region, collected.meets, ?_⟩
  intro other member otherMeets
  rcases mem_cons.mp member with rfl | inRegions
  · exact absurd otherMeets misses
  · exact collected.complete other inRegions otherMeets

theorem collected_nil (misses : ∀ region ∈ regions, ¬ region.range.Meets range) :
    Collected range regions [] :=
  ⟨nil_sublist _, by simp, fun region member meets => absurd meets (misses region member)⟩

/-- Regions as the loop meets them. -/
structure Orderly (range : VirtualRange) (regions : List Region) : Prop where
  bounded : range.Bounded
  nonempty : 0 < range.size
  separated : Intervals.Separated Region.base Region.stop regions
  regionBounded : ∀ region ∈ regions, region.range.Bounded

section

variable (orderly : Orderly range (region :: rest))

include orderly

theorem Orderly.tail : Orderly range rest :=
  ⟨orderly.bounded, orderly.nonempty, orderly.separated.tail,
    (forall_mem_cons.mp orderly.regionBounded).2⟩

theorem Orderly.regionNonempty : 0 < region.range.size := by
  have nonempty := orderly.separated.nonempty region mem_cons_self
  unfold Region.base Region.stop stop at nonempty
  omega

theorem Orderly.misses_of_reaches (reaches : range.stop ≤ region.stop) :
    ∀ other ∈ rest, ¬ other.range.Meets range := by
  intro other member meets
  have order := (pairwise_cons.mp orderly.separated.ordered).1 other member
  have start : other.base < range.stop := meets.1
  omega

theorem Orderly.collect_delivers (meets : region.range.Meets range)
    (stopped : ∀ later, later.regionTree = space.regionTree → (total + ((range.base - region.base) +
        (region.stop - range.stop))) % 2 ^ 64 = range.size →
      post [region] later) (continued : ∀ later, later.regionTree = space.regionTree →
      (total + ((range.base - region.base) + (region.stop - range.stop))) % 2 ^ 64 ≠ range.size →
      Delivers (Live healthy) (collectIntersecting range rest ((total +
          ((range.base - region.base) + (region.stop - range.stop))) % 2 ^ 64)) later
        fun result final => post (region :: result) final) :
    Delivers (Live healthy) (collectIntersecting range (region :: rest) total) space post := by
  have regionBounded := orderly.regionBounded region mem_cons_self
  have intersected := intersect_eq regionBounded orderly.bounded
    meets orderly.regionNonempty orderly.nonempty
  have leftover : addressDifference region.range.size
      (min region.range.stop range.stop - max region.range.base range.base) =
        (range.base - region.base) + (region.stop - range.stop) := by
    obtain ⟨low, high⟩ := meets
    unfold Bounded at regionBounded
    unfold Region.stop Region.base
    unfold VirtualRange.stop at low high ⊢
    rw [VirtualRange.addressDifference_eq (by omega) (by omega)]
    omega
  rw [collectIntersecting, if_pos ((meets_iff_condition regionBounded orderly.bounded).mpr meets)]
  apply Delivers.bind requestMemory_delivers
  intro _ later sameTree
  rw [intersected, asserted_some_bind, leftover]
  dsimp only
  split
  next equal => exact Delivers.pure (stopped later sameTree equal)
  next differ =>
    apply Delivers.bind (continued later sameTree differ)
    intro result final established
    exact Delivers.pure established

end

theorem Orderly.collectAbove_delivers (orderly : Orderly range regions)
    (above : ∀ region ∈ regions, range.base ≤ region.base) (differ : total ≠ range.size)
    (word : total < 2 ^ 64) :
    Delivers (Live healthy) (collectIntersecting range regions total) space
      fun result later => later.regionTree = space.regionTree ∧ Collected range regions result := by
  induction regions generalizing total space with
  | nil => exact Delivers.pure ⟨rfl, collected_nil (by simp)⟩
  | cons region rest ih =>
    obtain ⟨start, restAbove⟩ := forall_mem_cons.mp above
    by_cases meets : region.range.Meets range
    · apply orderly.collect_delivers meets
      · intro later sameTree equal
        have reaches : range.stop ≤ region.stop := by omega
        exact ⟨sameTree, (collected_nil (orderly.misses_of_reaches reaches)).cons meets⟩
      · intro later sameTree unequal
        apply Delivers.weaken (ih orderly.tail restAbove unequal
          (Nat.mod_lt _ (Nat.two_pow_pos 64)))
        intro result final ⟨sameFinal, collected⟩
        exact ⟨sameFinal.trans sameTree, collected.cons meets⟩
    · have regionBounded := orderly.regionBounded region mem_cons_self
      rw [collectIntersecting, if_neg fun condition => meets
        ((meets_iff_condition regionBounded orderly.bounded).mp condition)]
      apply Delivers.weaken (ih orderly.tail restAbove differ word)
      intro result later ⟨sameTree, collected⟩
      exact ⟨sameTree, collected.skip meets⟩

section

variable {tree : RegionTree} {found : Region} {before after : List Region}

/-- The place where the loop starts. -/
structure Anchor (tree : RegionTree) (range : VirtualRange) (found : Region)
    (before after : List Region) : Prop where
  placed : tree.WellPlaced
  bounded : range.Bounded
  nonempty : 0 < range.size
  split : tree.regions = before ++ found :: after
  below : found.base ≤ range.base
  passed : ∀ region ∈ before, region.stop ≤ found.base
  above : ∀ region ∈ after, range.base < region.base

section

variable (anchor : Anchor tree range found before after)

include anchor

theorem Anchor.member : found ∈ tree.regions := by
  rw [anchor.split]
  simp

theorem Anchor.orderly : Orderly range (found :: after) := by
  have sublist : (found :: after).Sublist tree.regions := by
    rw [anchor.split]
    exact sublist_append_right _ _
  refine ⟨anchor.bounded, anchor.nonempty, ⟨?_, ?_⟩, ?_⟩
  · intro region member
    exact anchor.placed.separated.nonempty region (sublist.subset member)
  · exact anchor.placed.separated.ordered.sublist sublist
  · intro region member
    exact anchor.placed.regionBounded (sublist.subset member)

theorem Anchor.mem_of_meets (member : region ∈ tree.regions) (meets : region.range.Meets range) :
    region ∈ found :: after := by
  rw [anchor.split] at member
  rcases mem_append.mp member with earlier | inLoop
  · have stop := anchor.passed region earlier
    have reaches : range.base < region.stop := meets.2
    have below := anchor.below
    omega
  · exact inLoop

theorem Anchor.eq_found (member : region ∈ tree.regions)
    (start : region.base + range.size = range.base) (reaches : range.base < region.stop) :
    region = found := by
  have nonempty := anchor.nonempty
  have meets : region.range.Meets range := by
    refine ⟨?_, reaches⟩
    change region.base < range.base + range.size
    omega
  rcases mem_cons.mp (anchor.mem_of_meets member meets) with
    same | later
  · exact same
  · have above := anchor.above region later
    omega

theorem Anchor.enumerates_of_collected (collected : Collected range (found :: after) result)
    (unstopped : found.base + range.size = range.base →
      range.base < found.stop → range.stop ≤ found.stop) : tree.Enumerates range result := by
  refine ⟨?_, collected.meets, ?_⟩
  · rw [anchor.split]
    exact collected.sublist.trans (sublist_append_right _ _)
  apply iff_of_true
  · intro region member meets
    exact collected.complete region (anchor.mem_of_meets member meets) meets
  refine ⟨fun _ => ⟨found, anchor.member, anchor.below⟩, ?_⟩
  intro region member start reaches other otherMember meets
  have first := anchor.eq_found member start reaches
  rw [first] at start reaches ⊢
  exact anchor.placed.eq_of_contains anchor.member otherMember
    anchor.below (unstopped start reaches) meets

theorem Anchor.enumerates_of_stopped (meets : found.range.Meets range)
    (start : found.base + range.size = range.base) : tree.Enumerates range [found] := by
  refine ⟨singleton_sublist.mpr anchor.member, ?_, ?_⟩
  · intro region member
    rw [mem_singleton.mp member]
    exact meets
  · constructor
    · intro complete
      refine ⟨fun _ => ⟨found, anchor.member, anchor.below⟩, ?_⟩
      intro region member regionStart reaches other otherMember otherMeets
      rw [anchor.eq_found member regionStart reaches]
      exact mem_singleton.mp (complete other otherMember otherMeets)
    · intro enumerable other member otherMeets
      rw [enumerable.unstopped found anchor.member start meets.2 other member otherMeets]
      exact mem_singleton_self _

end

theorem Anchor.collect_delivers (same : space.regionTree = tree)
    (anchor : Anchor tree range found before after) :
    Delivers (Live healthy) (collectIntersecting range (found :: after) 0)
      space fun result later => later.regionTree = tree ∧ tree.Enumerates range result := by
  have below := anchor.below
  have nonempty := anchor.nonempty
  have foundBound : found.stop < 2 ^ 64 := anchor.placed.regionBounded anchor.member
  have restAbove : ∀ region ∈ after, range.base ≤ region.base :=
    fun region member => Nat.le_of_lt (anchor.above region member)
  by_cases meets : found.range.Meets range
  · have reaches : range.base < found.stop := meets.2
    apply anchor.orderly.collect_delivers meets
    · intro later sameTree equal
      refine ⟨sameTree.trans same, ?_⟩
      by_cases contains : range.stop ≤ found.stop
      · exact anchor.placed.enumerates_of_contains anchor.member nonempty below contains
      · exact anchor.enumerates_of_stopped meets (by omega)
    · intro later sameTree unequal
      apply Delivers.weaken (anchor.orderly.tail.collectAbove_delivers
        restAbove unequal (Nat.mod_lt _ (Nat.two_pow_pos 64)))
      intro result final ⟨sameFinal, collected⟩
      refine ⟨sameFinal.trans (sameTree.trans same), ?_⟩
      apply anchor.enumerates_of_collected (collected.cons meets)
      intro start _
      omega
  · have foundBounded := anchor.placed.regionBounded anchor.member
    rw [collectIntersecting, if_neg fun condition => meets
      ((meets_iff_condition foundBounded anchor.bounded).mp condition)]
    apply Delivers.weaken (anchor.orderly.tail.collectAbove_delivers
      restAbove (Nat.ne_of_lt nonempty) (Nat.two_pow_pos 64))
    intro result later ⟨sameTree, collected⟩
    refine ⟨sameTree.trans same, ?_⟩
    apply anchor.enumerates_of_collected (collected.skip meets)
    intro start reaches
    apply absurd _ meets
    refine ⟨?_, reaches⟩
    change found.base < range.base + range.size
    omega

end

theorem enumerates_nil {tree : RegionTree}
    (above : ∀ region ∈ tree.regions, range.base < region.base) : tree.Enumerates range [] := by
  refine ⟨nil_sublist _, by simp, ?_⟩
  constructor
  · intro complete
    constructor
    · intro ⟨region, member, meets⟩
      cases complete region member meets
    · intro region member start
      have beyond := above region member
      omega
  · intro enumerable region member meets
    obtain ⟨other, otherMember, below⟩ := enumerable.anchored ⟨region, member, meets⟩
    have beyond := above other otherMember
    omega

theorem exists_anchor (placed : tree.WellPlaced) (bounded : range.Bounded)
    (nonempty : 0 < range.size) (largest : tree.findLargestNotAbove range.base = some found) :
    ∃ before after, Anchor tree range found before after ∧
      (tree.regions.dropWhile fun region => region.base != found.base) = found :: after := by
  obtain ⟨member, below, others⟩ := placed.separated.largestNotAbove_eq_some largest
  have foundNonempty := placed.separated.nonempty found member
  obtain ⟨before, after, split⟩ := append_of_mem member
  have ordered := placed.separated.ordered
  rw [split] at ordered
  obtain ⟨_, tailOrdered, across⟩ := pairwise_append.mp ordered
  have passed : ∀ region ∈ before, region.stop ≤ found.base :=
    fun region inBefore => across region inBefore found mem_cons_self
  have above : ∀ region ∈ after, range.base < region.base := by
    intro region inAfter
    have order := (pairwise_cons.mp tailOrdered).1 region inAfter
    have inTree : region ∈ tree.regions := by
      rw [split]
      simp [inAfter]
    have regionNonempty := placed.separated.nonempty region inTree
    rcases others region inTree with rfl | earlier | beyond
    · omega
    · omega
    · exact beyond
  refine ⟨before, after, ⟨placed, bounded, nonempty, split, below, passed, above⟩, ?_⟩
  rw [split, dropWhile_append_of_pos]
  · exact dropWhile_cons_of_neg (by simp)
  intro region inBefore
  have stop := passed region inBefore
  have regionNonempty := placed.separated.nonempty region (by
    rw [split]
    simp [inBefore])
  apply bne_iff_ne.mpr
  omega

theorem findRegionsIntersecting_delivers (placed : space.regionTree.WellPlaced)
    (bounded : range.Bounded) (nonempty : 0 < range.size) :
    Delivers (Live healthy) (findRegionsIntersecting range) space
      fun result later => later.regionTree = space.regionTree ∧
        space.regionTree.Enumerates range result := by
  apply Delivers.bind readTree_delivers
  intro tree _ ⟨treeEq, spaceEq⟩
  rw [treeEq, spaceEq]
  cases largest : space.regionTree.findLargestNotAbove range.base with
  | none =>
    apply Delivers.pure
    refine ⟨rfl, enumerates_nil ?_⟩
    exact Intervals.largestNotAbove_eq_none.mp largest
  | some found =>
    obtain ⟨before, after, anchor, dropped⟩ := exists_anchor placed bounded nonempty largest
    dsimp only
    rw [dropped]
    exact anchor.collect_delivers rfl

end

section

variable {tree : RegionTree} {range : VirtualRange}

theorem pageRoundUp_size (pages : range.PageAligned)
    (bounded : range.Bounded) : pageRoundUp range.size = .ok range.size := by
  obtain ⟨basePages, sizePages⟩ := pages
  unfold Bounded at bounded
  unfold pageRoundUp pageSize at *
  rw [if_neg (by omega)]
  apply congrArg Except.ok
  omega

theorem findRegionFromRange_eq_some (placed : tree.WellPlaced)
    (pages : range.PageAligned) (bounded : range.Bounded) :
    findRegionFromRange tree range = some region ↔
      region ∈ tree.regions ∧ region.range = range := by
  unfold findRegionFromRange
  rw [pageRoundUp_size pages bounded]
  constructor
  · intro found
    split at found
    · cases found
    next other key =>
      obtain ⟨member, start⟩ := placed.separated.find_eq_some.mp key
      dsimp only at found
      split at found
      next sameSize =>
        cases found
        refine ⟨member, ?_⟩
        refine eq_of_bounds start ?_
        rw [stop, sameSize, show region.range.base = range.base from start, stop]
      · cases found
  · intro ⟨member, whole⟩
    have start : region.base = range.base := congrArg base whole
    rw [placed.separated.find_eq_some.mpr ⟨member, start⟩]
    exact if_pos (congrArg size whole)

theorem findRegionContaining_eq_some (placed : tree.WellPlaced)
    (bounded : range.Bounded) (nonempty : 0 < range.size) :
    tree.findRegionContaining range = some region ↔
      region ∈ tree.regions ∧ region.base ≤ range.base ∧ range.stop ≤ region.stop := by
  have word : range.base < 2 ^ 64 := Nat.lt_of_le_of_lt (Nat.le_add_right _ _) bounded
  have small : range.size < 2 ^ 64 := Nat.lt_of_le_of_lt (Nat.le_add_left _ _) bounded
  unfold RegionTree.findRegionContaining
  constructor
  · intro found
    split at found
    · cases found
    next nearest largest =>
      have member := (placed.separated.largestNotAbove_eq_some largest).1
      split at found
      next contained =>
        cases found
        exact ⟨member, (contains_iff (placed.regionBounded member) word small).mp contained⟩
      · cases found
  · intro ⟨member, above, below⟩
    cases largest : tree.findLargestNotAbove range.base with
    | none =>
      have beyond := Intervals.largestNotAbove_eq_none.mp largest region member
      omega
    | some nearest =>
      obtain ⟨nearestMember, start, others⟩ := placed.separated.largestNotAbove_eq_some largest
      have order : range.base < range.stop := Nat.lt_add_of_pos_right nonempty
      have same : region = nearest := by
        rcases others region member with same | before | beyond
        · exact same
        · omega
        · omega
      rw [← same]
      exact if_pos ((contains_iff (placed.regionBounded member) word small).mpr ⟨above, below⟩)

end

end AddressSpace

end MixUpOS.Kernel.Memory
