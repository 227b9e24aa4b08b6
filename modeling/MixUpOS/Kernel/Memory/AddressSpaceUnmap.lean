import MixUpOS.Kernel.Memory.AddressSpaceEnumeration

/-!
# Unmapping a range

Each of the three paths of `unmap_mmap_range` removes the mappings that some
regions have in the range.  The paths differ in how they find the regions.
-/

namespace MixUpOS.Kernel.Memory

open Library.Programs VirtualRange List

namespace RegionTree

variable {tree later : RegionTree} {range : VirtualRange} {region : Region} {regions : List Region}

theorem WellPlaced.rewritten_remove (placed : tree.WellPlaced) (member : region ∈ tree.regions)
    (above : range.base ≤ region.base) (below : region.stop ≤ range.stop) :
    tree.Rewritten (fun _ => none) range [region] (tree.remove region).1 := by
  have carved : region.range.Carved range [] := by
    refine ⟨⟨by simp, by simp, by simp, .nil⟩, by simp, ?_⟩
    intro address holds
    have covered : range.Holds address :=
      ⟨Nat.le_trans above holds.1, Nat.lt_of_lt_of_le holds.2 below⟩
    simp [covered]
  exact AddressSpace.Restored.rewritten placed member carved (.nil (placed.remove region))

/-- The range is empty afterwards, and all else is mapped as before. -/
structure Unmapped (tree : RegionTree) (range : VirtualRange) (later : RegionTree) : Prop where
  cleared : ∀ region ∈ later.regions, region.range.intersects range = false
  unchanged : ∀ address, ¬ range.Holds address → later.mappingAt address = tree.mappingAt address

theorem not_intersects_iff (regionBounded : region.range.Bounded)
    (bounded : range.Bounded) : region.range.intersects range = false ↔
      ¬ region.range.Meets range := by
  rw [← Bool.not_eq_true, intersects_iff regionBounded bounded]
  exact Iff.rfl

theorem exists_common (meets : region.range.Meets range)
    (regionNonempty : 0 < region.range.size) (nonempty : 0 < range.size) :
    ∃ address, region.range.Holds address ∧ range.Holds address := by
  obtain ⟨start, stop⟩ := meets
  refine ⟨max region.range.base range.base, ?_⟩
  unfold VirtualRange.Holds VirtualRange.stop at *
  omega

/-- Removing the mappings of the enumerated regions clears the range exactly
when the enumeration was complete. -/
theorem Rewritten.unmapped_iff (placed : tree.WellPlaced) (bounded : range.Bounded)
    (nonempty : 0 < range.size) (enumerates : tree.Enumerates range regions)
    (rewritten : tree.Rewritten (fun _ => none) range regions later) :
    tree.Unmapped range later ↔ tree.Enumerable range := by
  rw [← enumerates.complete]
  constructor
  · intro unmapped region member meets
    by_contra absent
    have remains := rewritten.others region member absent
    have cleared := unmapped.cleared region remains
    exact (not_intersects_iff (placed.regionBounded member) bounded).mp cleared meets
  · intro complete
    constructor
    · intro region member
      apply (not_intersects_iff (rewritten.placed.regionBounded member) bounded).mpr
      intro meets
      have regionNonempty : 0 < region.range.size := by
        have order := rewritten.placed.separated.nonempty region member
        unfold Region.base Region.stop stop at order
        omega
      obtain ⟨address, holds, inRange⟩ := exists_common meets regionNonempty nonempty
      have mapped := rewritten.placed.mappingAt_of_mem member holds
      by_cases processed : ∃ old ∈ regions, old.range.Holds address
      · rw [rewritten.inside address inRange processed] at mapped
        cases original : tree.mappingAt address with
        | none | some mapping =>
          rw [original] at mapped
          cases mapped
      · have absent : ∀ old ∈ tree.regions, ¬ old.range.Holds address := by
          intro old oldMember oldHolds
          apply processed
          refine ⟨old, complete old oldMember ?_, oldHolds⟩
          exact ⟨Nat.lt_of_le_of_lt oldHolds.1 inRange.2, Nat.lt_of_le_of_lt inRange.1 oldHolds.2⟩
        rw [rewritten.outside address fun _ old oldMember oldHolds =>
          processed ⟨old, oldMember, oldHolds⟩,
          mappingAt_eq_none.mpr absent] at mapped
        cases mapped
    · intro address outside
      exact rewritten.outside address fun inRange => absurd inRange outside

end RegionTree

namespace AddressSpace

variable {space : AddressSpace} {boot : BootInfo} {range : VirtualRange} {region : Region}
  {regions : List Region}

/-- A region that may be unmapped. -/
structure Removable (boot : BootInfo) (region : Region) : Prop
    extends Mappable boot region where
  isMmap : region.mmap = true
  notImmutable : region.immutable = false

theorem checkUnmappable_delivers (removable : healthy → Removable boot region) :
    Delivers (Live healthy) (checkUnmappable region) space (SameTree space) := by
  apply Delivers.refuseIf_bind
  · intro live
    rw [(removable live.1).isMmap]
    rfl
  · intro _
    apply Delivers.refuseIf
    · intro live
      exact (removable live.1).notImmutable
    · intro _
      rfl

theorem checkAllUnmappable_delivers
    (removable : healthy → ∀ region ∈ regions, Removable boot region) :
    Delivers (Live healthy) (checkAllUnmappable regions) space (SameTree space) := by
  induction regions generalizing space with
  | nil => exact Delivers.pure rfl
  | cons region rest ih =>
    apply sameTree_bind
    · exact checkUnmappable_delivers fun condition => removable condition region mem_cons_self
    · intro _
      exact ih fun condition => (forall_mem_cons.mp (removable condition)).2

theorem takeAndSplit_unmaps (placed : space.regionTree.WellPlaced)
    (member : region ∈ space.regionTree.regions) (bounded : range.Bounded)
    (pages : range.PageAligned) (meets : region.range.Meets range)
    (outside : region.base < range.base ∨ range.stop < region.stop)
    (mappable : healthy → Mappable boot region) :
    Delivers (Live healthy) (takeAndSplit region range) space fun result later =>
        (healthy → ∀ new ∈ result, Mappable boot new) ∧
        space.regionTree.Rewritten (fun _ => none) range [region] later.regionTree := by
  have carved := carved_carvedParts meets (placed.aligned region member) pages
  apply Delivers.weaken (takeAndSplit_delivers placed member bounded pages
    meets (carvedParts_ne_nil outside))
  intro result later ⟨resultEq, restored⟩
  refine ⟨?_, restored.rewritten placed member carved⟩
  intro condition
  rw [resultEq]
  exact splitParts_mappable (mappable condition) carved

/-- The regions that the unmapping loop is given. -/
structure Listed (tree : RegionTree) (range : VirtualRange) (regions : List Region) : Prop where
  placed : tree.WellPlaced
  bounded : range.Bounded
  pages : range.PageAligned
  nonempty : 0 < range.size
  members : ∀ region ∈ regions, region ∈ tree.regions
  meets : ∀ region ∈ regions, region.range.Meets range
  ordered : regions.Pairwise fun region later => region.stop ≤ later.base

theorem Listed.regionNonempty (listed : Listed tree range regions) (member : region ∈ regions) :
    0 < region.range.size := by
  have order := listed.placed.separated.nonempty region (listed.members region member)
  unfold Region.base Region.stop stop at order
  omega

theorem Listed.apart {tree : RegionTree} {rest : List Region}
    (listed : Listed tree range (region :: rest)) :
    ∀ other ∈ rest, ∀ address, region.range.Holds address → ¬ other.range.Holds address := by
  intro other member address holds otherHolds
  have order : region.stop ≤ other.base := (pairwise_cons.mp listed.ordered).1 other member
  have below : address < region.stop := holds.2
  have above : other.base ≤ address := otherHolds.1
  omega

theorem Listed.rest {rest : List Region} (listed : Listed tree range (region :: rest))
    (rewritten : tree.Rewritten change range [region] later) : Listed later range rest := by
  refine ⟨rewritten.placed, listed.bounded, listed.pages, listed.nonempty,
    ?_, ?_, (pairwise_cons.mp listed.ordered).2⟩
  · intro other member
    apply rewritten.others other (listed.members other (mem_cons_of_mem _ member))
    intro same
    have order := (pairwise_cons.mp listed.ordered).1 other member
    have nonempty := listed.regionNonempty mem_cons_self
    rw [mem_singleton.mp same] at order
    unfold Region.stop Region.base stop at order
    omega
  · exact (forall_mem_cons.mp listed.meets).2

theorem unmapRegions_delivers (listed : Listed space.regionTree range regions)
    (mappable : healthy → ∀ region ∈ regions, Mappable boot region) :
    Delivers (Live healthy) (unmapRegions range regions) space fun result later =>
        (healthy → ∀ new ∈ result, Mappable boot new) ∧
        space.regionTree.Rewritten (fun _ => none) range regions later.regionTree := by
  induction regions generalizing space with
  | nil => exact Delivers.pure ⟨by simp, .nil listed.placed⟩
  | cons region rest ih =>
    have member := listed.members region mem_cons_self
    have meets := listed.meets region mem_cons_self
    have regionBounded := listed.placed.regionBounded member
    have regionNonempty := listed.regionNonempty mem_cons_self
    have intersected := intersect_eq regionBounded
      listed.bounded meets regionNonempty listed.nonempty
    have lies : min region.range.stop range.stop - max region.range.base range.base =
        region.range.size ↔ range.base ≤ region.base ∧ region.stop ≤ range.stop := by
      unfold Region.base Region.stop
      unfold VirtualRange.stop at *
      omega
    have restMappable : healthy → ∀ other ∈ rest,
        Mappable boot other := fun condition => (forall_mem_cons.mp (mappable condition)).2
    rw [unmapRegions, intersected, asserted_some_bind]
    split
    next whole =>
      obtain ⟨above, below⟩ := lies.mp whole
      apply Delivers.bind (takeRegion_delivers listed.placed member)
      intro _ middle middleEq
      have first := listed.placed.rewritten_remove member above below
      rw [← middleEq] at first
      apply Delivers.weaken (ih (listed.rest first) restMappable)
      intro result later ⟨newMappable, rewritten⟩
      exact ⟨newMappable, first.cons rewritten listed.apart⟩
    next part =>
      have outside : region.base < range.base ∨ range.stop < region.stop := by
        by_contra inside
        apply part
        apply lies.mpr
        omega
      apply Delivers.bind (takeAndSplit_unmaps listed.placed member
        listed.bounded listed.pages meets outside fun condition =>
          mappable condition region mem_cons_self)
      intro split middle ⟨splitMappable, first⟩
      apply Delivers.bind requestMemory_delivers
      intro _ second sameTree
      rw [← show second.regionTree = middle.regionTree from sameTree] at first
      apply Delivers.bind (ih (listed.rest first) restMappable)
      intro result later ⟨newMappable, rewritten⟩
      apply Delivers.pure
      refine ⟨?_, first.cons rewritten listed.apart⟩
      intro condition new newMember
      rcases mem_append.mp newMember with inSplit | inResult
      · exact splitMappable condition new inSplit
      · exact newMappable condition new inResult

/-- All three paths remove the mappings of the regions they found. -/
def Clears (space : AddressSpace) (range : VirtualRange) (later : AddressSpace) : Prop :=
  ∃ regions, space.regionTree.Enumerates range regions ∧
    space.regionTree.Rewritten (fun _ => none) range regions later.regionTree

section

variable (placed : space.regionTree.WellPlaced) (bounded : range.Bounded)
  (pages : range.PageAligned) (nonempty : 0 < range.size)
  (removable : healthy → ∀ region ∈ space.regionTree.regions, Removable boot region)

include placed bounded pages nonempty removable

omit bounded pages in
theorem unmapWholeRegion_delivers (member : region ∈ space.regionTree.regions)
    (whole : region.range = range) :
    Delivers (Live healthy) (unmapWholeRegion region) space
      fun _ later => Clears space range later := by
  have sameBase : region.base = range.base := congrArg base whole
  have sameStop : region.stop = range.stop := congrArg stop whole
  apply Delivers.bind (checkUnmappable_delivers fun condition =>
    removable condition region member)
  intro _ checked sameTree
  rw [SameTree] at sameTree
  apply Delivers.weaken (takeRegion_delivers
    (by rw [sameTree]; exact placed) (by rw [sameTree]; exact member))
  intro _ later laterEq
  refine ⟨[region], ?_, ?_⟩
  · exact placed.enumerates_of_contains member nonempty
      (Nat.le_of_eq sameBase) (Nat.le_of_eq sameStop.symm)
  · rw [laterEq, sameTree]
    exact placed.rewritten_remove member (Nat.le_of_eq sameBase.symm) (Nat.le_of_eq sameStop)

theorem unmapFromContainingRegion_delivers (member : region ∈ space.regionTree.regions)
    (above : region.base ≤ range.base) (below : range.stop ≤ region.stop)
    (larger : region.range ≠ range) :
    Delivers (Live healthy) (unmapFromContainingRegion boot region range)
      space fun _ later => Clears space range later := by
  have meets : region.range.Meets range := meets_of_contains nonempty above below
  have outside : region.base < range.base ∨ range.stop < region.stop := by
    by_contra inside
    apply larger
    exact eq_of_bounds (Nat.le_antisymm above (Nat.le_of_not_lt fun low => inside (.inl low)))
      (Nat.le_antisymm (Nat.le_of_not_lt fun high => inside (.inr high)) below)
  apply Delivers.bind (checkUnmappable_delivers fun condition =>
    removable condition region member)
  intro _ checked sameTree
  rw [← sameTree] at placed member
  apply Delivers.bind (takeAndSplit_unmaps placed member bounded pages meets
    outside fun condition =>
      (removable condition region (by rw [← sameTree]; exact member)).1)
  intro new middle ⟨newMappable, rewritten⟩
  apply Delivers.weaken (mapAll_delivers newMappable)
  intro _ later sameLater
  rw [sameTree] at placed member rewritten
  refine ⟨[region], ?_, ?_⟩
  · exact placed.enumerates_of_contains member nonempty above below
  · rw [sameLater]
    exact rewritten

theorem unmapFromSeveralRegions_delivers :
    Delivers (Live healthy) (unmapFromSeveralRegions boot range) space
      fun _ later => Clears space range later := by
  apply Delivers.bind (findRegionsIntersecting_delivers placed bounded nonempty)
  intro regions found ⟨sameFound, enumerates⟩
  have listedRemovable : healthy → ∀ region ∈ regions,
      Removable boot region := fun condition region member =>
    removable condition region (enumerates.sublist.subset member)
  apply Delivers.bind (checkAllUnmappable_delivers listedRemovable)
  intro _ checked sameChecked
  have same : checked.regionTree = space.regionTree := Eq.trans sameChecked sameFound
  have listed : Listed checked.regionTree range regions := by
    rw [same]
    exact ⟨placed, bounded, pages, nonempty, fun region member => enumerates.sublist.subset member,
      enumerates.meets, placed.separated.ordered.sublist enumerates.sublist⟩
  apply Delivers.bind (unmapRegions_delivers listed
    fun condition region member => (listedRemovable condition region member).1)
  intro new middle ⟨newMappable, rewritten⟩
  apply Delivers.weaken (mapAll_delivers newMappable)
  intro _ later sameLater
  refine ⟨regions, enumerates, ?_⟩
  rw [show later.regionTree = middle.regionTree from sameLater, ← same]
  exact rewritten

end

/-- When `unmap_mmap_range` does not return an error of its own. -/
structure Unmappable (boot : BootInfo) (tree : RegionTree) (addr size : Nat) : Prop where
  nonempty : 0 < size
  inUserRange : ∃ range, expandToPageBoundaries addr size =
    .ok range ∧ boot.isUserRange range = true
  removable : ∀ region ∈ tree.regions, Removable boot region

theorem unmapMmapRange_delivers {size : Nat} (placed : space.regionTree.WellPlaced)
    (word : addr < 2 ^ 64) (small : size < 2 ^ 64)
    (unmappable : healthy → Unmappable boot space.regionTree addr size) :
    Delivers (Live healthy) (unmapMmapRange boot addr size) space fun _ later => ∃ range,
        expandToPageBoundaries addr size = .ok range ∧
        range.Bounded ∧ 0 < range.size ∧ Clears space range later := by
  apply Delivers.refuseIf_bind
  · intro live
    exact beq_false_of_ne (Nat.ne_of_gt (unmappable live.1).nonempty)
  intro nonzero
  apply Delivers.fallible_bind
  · intro live
    obtain ⟨range, expandedEq, _⟩ := (unmappable live.1).inUserRange
    exact ⟨range, expandedEq⟩
  · intro range expandedEq
    have expanded := expandToPageBoundaries_spec word small expandedEq
    have nonempty := expanded.nonempty (Nat.pos_of_ne_zero (ne_of_beq_false nonzero))
    have removable : healthy → ∀ region ∈ space.regionTree.regions,
        Removable boot region := fun condition =>
      (unmappable condition).removable
    apply Delivers.refuseIf_bind
    · intro live
      obtain ⟨other, otherEq, allowed⟩ := (unmappable live.1).inUserRange
      rw [expandedEq] at otherEq
      cases otherEq
      rw [allowed]
      rfl
    · intro _
      apply Delivers.bind readTree_delivers
      intro tree _ ⟨treeEq, spaceEq⟩
      rw [treeEq, spaceEq]
      refine Delivers.weaken ?_ fun _ later (cleared : Clears space range later) =>
        ⟨range, expandedEq, expanded.bounded, nonempty, cleared⟩
      cases whole : findRegionFromRange space.regionTree range with
      | some region =>
        obtain ⟨member, same⟩ := (findRegionFromRange_eq_some placed
          expanded.pages expanded.bounded).mp whole
        exact unmapWholeRegion_delivers placed nonempty removable member same
      | none =>
        cases containing : space.regionTree.findRegionContaining range with
        | some region =>
          obtain ⟨member, above, below⟩ :=
            (findRegionContaining_eq_some placed expanded.bounded nonempty).mp containing
          apply unmapFromContainingRegion_delivers placed
            expanded.bounded expanded.pages nonempty removable member
            above below
          intro same
          rw [(findRegionFromRange_eq_some placed expanded.pages
            expanded.bounded).mpr ⟨member, same⟩] at whole
          cases whole
        | none =>
          exact unmapFromSeveralRegions_delivers placed
            expanded.bounded expanded.pages nonempty removable

/-- A successful `munmap` empties the range and keeps all else, exactly when
the enumeration of the regions is complete. -/
theorem unmapMmapRange_unmapped_iff {later : AddressSpace} {addr size : Nat}
    (placed : space.regionTree.WellPlaced) (word : addr < 2 ^ 64) (small : size < 2 ^ 64)
    (success : outcome (unmapMmapRange boot addr size) space = some (.ok (), later)) :
    ∃ range, VirtualRange.expandToPageBoundaries addr size = .ok range ∧
      (space.regionTree.Unmapped range later.regionTree ↔ space.regionTree.Enumerable range) := by
  have delivers : Delivers (Live False) (unmapMmapRange boot addr size) space _ :=
    unmapMmapRange_delivers placed word small fun never =>
      never.elim
  obtain ⟨⟨range, expandedEq, bounded, nonempty, regions, enumerates,
    rewritten⟩, _⟩ := delivers.sound () later success
  refine ⟨range, expandedEq, ?_⟩
  exact rewritten.unmapped_iff placed bounded nonempty enumerates

def anonymousRegion (base size : Nat) : Region :=
  { Region.createUnplaced ⟨0, .anonymous⟩ 0 none ⟨true, true, false⟩ .normal false with
    range := ⟨base, size⟩
    mmap := true }

def twoMappings : AddressSpace where
  regionTree := ⟨⟨0x10000, 0x100000⟩,
    [anonymousRegion 0x20000 0x3000, anonymousRegion 0x23000 0x1000]⟩
  memory := fun _ => true

theorem twoMappings_placed : twoMappings.regionTree.WellPlaced := by
  constructor
  · unfold Bounded
    decide
  · constructor
    · decide
    · decide
  · decide
  · intro region member
    unfold PageAligned
    revert region
    decide

theorem exists_not_unmapped {command : Command Unit}
    (evaluated : (outcome command space).map (fun result => (result.1, result.2.regionTree)) =
        some (.ok (), tree)) (remains : region ∈ tree.regions)
    (meets : region.range.intersects range = true) :
    ∃ later, outcome command space = some (.ok (), later) ∧
      ¬ space.regionTree.Unmapped range later.regionTree := by
  obtain ⟨⟨result, later⟩, reached, pair⟩ := Option.map_eq_some_iff.mp evaluated
  cases pair
  refine ⟨later, reached, fun unmapped => ?_⟩
  have cleared := unmapped.cleared region remains
  rw [meets] at cleared
  cases cleared

theorem unmapMmapRange_unmapped_iff_onePage :
    ∃ later, outcome (unmapMmapRange ⟨0x2000000000⟩ 0x21000 0x1000)
        twoMappings = some (.ok (), later) ∧
      ∃ range, VirtualRange.expandToPageBoundaries 0x21000 0x1000 = .ok range ∧
        (twoMappings.regionTree.Unmapped range later.regionTree ↔
          twoMappings.regionTree.Enumerable range) := by
  obtain ⟨later, reached⟩ : ∃ later, outcome (unmapMmapRange ⟨0x2000000000⟩ 0x21000 0x1000)
      twoMappings = some (.ok (), later) := ⟨_, rfl⟩
  exact ⟨later, reached, unmapMmapRange_unmapped_iff twoMappings_placed
    (by decide) (by decide) reached⟩

/-- Unmapping the last of three pages and the page behind them leaves the page
behind them mapped, and unmapping a range that begins below all regions leaves
all of them mapped. -/
theorem unmapMmapRange_leaves_mapped :
    (∃ later, outcome (unmapMmapRange ⟨0x2000000000⟩ 0x22000 0x2000)
        twoMappings = some (.ok (), later) ∧
      ¬ twoMappings.regionTree.Unmapped ⟨0x22000, 0x2000⟩ later.regionTree) ∧
    (∃ later, outcome (unmapMmapRange ⟨0x2000000000⟩ 0x1f000 0x5000)
        twoMappings = some (.ok (), later) ∧
      ¬ twoMappings.regionTree.Unmapped ⟨0x1f000, 0x5000⟩ later.regionTree) := by
  constructor <;>
    exact exists_not_unmapped rfl (List.mem_cons_of_mem _ List.mem_cons_self) (by decide)

end AddressSpace

end MixUpOS.Kernel.Memory
