import MixUpOS.Kernel.Syscalls.MprotectRegions

/-!
# What `sys$mprotect` does

A call that succeeds changes the access of the range and nothing else.  A call
on a range that is covered by regions which pass the checks succeeds, if there
is memory, exactly when the enumeration of the regions is complete.
-/

namespace MixUpOS.Kernel.Syscalls

open Library.Programs Nat
open Kernel.Memory
open Kernel.Memory.AddressSpace

namespace Process

section

variable {range : VirtualRange}

theorem mprotectRegion_delivers (listed : Listed space.regionTree range regions)
    (member : region ∈ regions)
    (notContaining : ¬ (region.base ≤ range.base ∧ range.stop ≤ region.stop))
    (mappable : healthy → Mappable boot region) :
    Delivers (Live healthy) (mprotectRegion boot access range region) space
      fun _ later => space.regionTree.Rewritten (Mapping.withAccess access)
        range [region] later.regionTree := by
  have placed := listed.placed
  have inTree := listed.members region member
  have regionBounded := placed.regionBounded inTree
  obtain ⟨part, intersected, overlap⟩ := exists_overlap listed.bounded
    regionBounded listed.pages (placed.aligned region inTree)
    (listed.meets region member) listed.nonempty
    (listed.regionNonempty member)
  unfold mprotectRegion
  rw [intersected, asserted_some_bind]
  split
  next whole =>
    obtain ⟨above, below⟩ := overlap.eq_range_iff.mp whole
    apply Delivers.weaken (setAccessAndRemap_delivers mappable)
    intro _ later laterEq
    rw [laterEq]
    exact placed.rewritten_setAccess inTree above below
  next sticksOut =>
    have oneSide : (region.base < range.base) ≠ (range.stop < region.stop) := by
      intro same
      by_cases low : region.base < range.base
      · have high : range.stop < region.stop := same ▸ low
        exact notContaining ⟨le_of_lt low, le_of_lt high⟩
      · have high : ¬ range.stop < region.stop := same ▸ low
        exact sticksOut (overlap.eq_range_iff.mpr ⟨by omega, by omega⟩)
    have lengthEq := overlap.length_carvedParts oneSide
    have left : region.range.carvedParts part ≠ [] := by
      intro empty
      rw [empty] at lengthEq
      cases lengthEq
    apply Delivers.bind (takeAndSplit_delivers placed inTree
      (overlap.bounded regionBounded) overlap.pages overlap.meets left)
    intro adjacent middle ⟨adjacentEq, restored⟩
    apply Delivers.assert_bind
    · intro _
      rw [adjacentEq, List.length_map, lengthEq]
      rfl
    · intro _
      rw [adjacentEq]
      exact overlap.replaceAndMap_delivers placed inTree restored mappable
        fun _ => List.mem_of_mem_take

theorem mprotectRegions_delivers (listed : Listed space.regionTree range regions)
    (notContaining : ∀ region ∈ regions, ¬ (region.base ≤ range.base ∧ range.stop ≤ region.stop))
    (mappable : healthy → ∀ region ∈ regions, Mappable boot region) :
    Delivers (Live healthy) (mprotectRegions boot access range regions) space
      fun _ later => space.regionTree.Rewritten (Mapping.withAccess access)
        range regions later.regionTree := by
  induction regions generalizing space with
  | nil => exact Delivers.pure (.nil listed.placed)
  | cons region rest ih =>
    have restNotContaining : ∀ other ∈ rest,
        ¬ (other.base ≤ range.base ∧ range.stop ≤ other.stop) :=
      (List.forall_mem_cons.mp notContaining).2
    have restMappable : healthy → ∀ other ∈ rest,
        Mappable boot other := fun condition => (List.forall_mem_cons.mp (mappable condition)).2
    rw [mprotectRegions]
    split
    next same =>
      have first : space.regionTree.Rewritten (Mapping.withAccess access)
          range [region] space.regionTree :=
        listed.placed.rewritten_same (listed.members region List.mem_cons_self) same
      apply Delivers.weaken (ih (listed.rest first) restNotContaining restMappable)
      intro _ later rewritten
      exact first.cons rewritten listed.apart
    next =>
      apply Delivers.bind (mprotectRegion_delivers listed
        List.mem_cons_self (notContaining region List.mem_cons_self)
        fun condition => mappable condition region List.mem_cons_self)
      intro _ middle first
      apply Delivers.weaken (ih (listed.rest first) restNotContaining restMappable)
      intro _ later rewritten
      exact first.cons rewritten listed.apart

end

/-- All three paths change the access in regions that cover the range. -/
structure Changes (space : AddressSpace) (range : VirtualRange)
    (access : Access) (later : AddressSpace) (regions : List Region) :
    Prop where
  members : ∀ region ∈ regions, region ∈ space.regionTree.regions
  covers : ∀ address, range.Holds address → ∃ region ∈ regions, region.range.Holds address
  rewritten : space.regionTree.Rewritten (Mapping.withAccess access) range regions later.regionTree
  enumerable : space.regionTree.Enumerable range

/-- What `sys$mprotect` asks of the range besides memory. -/
structure Permitted (boot : BootInfo) (process : Process)
    (tree : RegionTree) (range : VirtualRange) (prot : BitVec 32) :
    Prop where
  stdio : process.hasPromises = true → process.hasPromised .stdio = true
  protExec : process.hasPromises = true → Prot.exec prot = true →
    process.hasPromised .protExec = true
  nonempty : 0 < range.size
  covered : ∀ address, range.Holds address → ∃ region ∈ tree.regions, region.range.Holds address
  protectable : ∀ region ∈ tree.regions, region.range.Meets range → Protectable process prot region
  mappable : ∀ region ∈ tree.regions, Mappable boot region

section

variable {space : AddressSpace} {range : VirtualRange}

theorem changes_of_contains (placed : space.regionTree.WellPlaced) (nonempty : 0 < range.size)
    (member : region ∈ space.regionTree.regions) (above : region.base ≤ range.base)
    (below : range.stop ≤ region.stop)
    (rewritten : space.regionTree.Rewritten (Mapping.withAccess access)
      range [region] later.regionTree) : ∃ regions, Changes space range access later regions := by
  have enumerates := placed.enumerates_of_contains member nonempty above below
  refine ⟨[region], ?_, ?_, rewritten, ?_⟩
  · intro other otherMember
    exact enumerates.sublist.subset otherMember
  · intro address holds
    exact ⟨region, List.mem_cons_self, le_trans above holds.1, lt_of_lt_of_le holds.2 below⟩
  · apply enumerates.complete.mp
    intro other otherMember meets
    rw [placed.eq_of_contains member otherMember above below meets]
    exact List.mem_cons_self

variable (placed : space.regionTree.WellPlaced) (bounded : range.Bounded)
  (pages : range.PageAligned) (nonempty : 0 < range.size)
  (permitted : healthy → Permitted boot process space.regionTree range prot)

include placed nonempty permitted

/-- The checks with which both functions begin that change a region that contains
the range. -/
theorem checked_delivers (member : region ∈ space.regionTree.regions)
    (above : region.base ≤ range.base) (below : range.stop ≤ region.stop)
    (changed : ∀ checked : AddressSpace, checked.regionTree = space.regionTree →
      Delivers (Live healthy) change checked fun _ later => space.regionTree.Rewritten
        (Mapping.withAccess (protToRegionAccessFlags prot)) range [region] later.regionTree) :
    Delivers (Live healthy) (do
        process.checkMmapProt prot region
        if region.access = protToRegionAccessFlags prot then return ()
        else
          checkInodeProt prot region
          change)
      space fun _ later => ∃ regions, Changes space range (protToRegionAccessFlags prot) later
          regions := by
  have protectable : healthy → Protectable process prot region :=
    fun condition => (permitted condition).protectable region member
      (VirtualRange.meets_of_contains nonempty above below)
  apply Delivers.bind (checkMmapProt_delivers protectable)
  intro _ checked sameChecked
  split
  next same =>
    apply Delivers.pure
    apply changes_of_contains placed nonempty member above below
    rw [show checked.regionTree = space.regionTree from sameChecked]
    exact placed.rewritten_same member same
  next =>
    apply Delivers.bind (checkInodeProt_delivers protectable)
    intro _ second sameSecond
    apply Delivers.weaken (changed second (Eq.trans sameSecond sameChecked))
    intro _ later rewritten
    exact changes_of_contains placed nonempty member above below rewritten

theorem mprotectWholeRegion_delivers (member : region ∈ space.regionTree.regions)
    (whole : region.range = range) :
    Delivers (Live healthy) (process.mprotectWholeRegion boot prot region)
      space fun _ later => ∃ regions, Changes space range (protToRegionAccessFlags prot) later
          regions := by
  have sameBase : region.base = range.base := congrArg VirtualRange.base whole
  have sameStop : region.stop = range.stop := congrArg VirtualRange.stop whole
  apply checked_delivers placed nonempty permitted member (le_of_eq sameBase)
    (le_of_eq sameStop.symm)
  intro checked sameTree
  apply Delivers.weaken (setAccessAndRemap_delivers fun condition =>
    (permitted condition).mappable region member)
  intro _ later laterEq
  rw [laterEq, sameTree]
  exact placed.rewritten_setAccess member (le_of_eq sameBase.symm) (le_of_eq sameStop)

include bounded pages

theorem mprotectInContainingRegion_delivers (member : region ∈ space.regionTree.regions)
    (above : region.base ≤ range.base) (below : range.stop ≤ region.stop)
    (larger : region.base < range.base ∨ range.stop < region.stop) :
    Delivers (Live healthy) (process.mprotectInContainingRegion boot prot region range) space
      fun _ later => ∃ regions, Changes space range (protToRegionAccessFlags prot) later
          regions := by
  have overlap : Overlap range region range := ⟨above, below, nonempty, pages,
    fun _ _ => Iff.rfl, (max_eq_left above).symm, (min_eq_left below).symm⟩
  apply checked_delivers placed nonempty permitted member above below
  intro checked sameTree
  apply Delivers.bind (takeAndSplit_delivers (sameTree ▸ placed) (sameTree ▸ member) bounded pages
    overlap.meets (VirtualRange.carvedParts_ne_nil larger))
  intro adjacent middle ⟨adjacentEq, restored⟩
  rw [sameTree] at restored
  rw [adjacentEq]
  exact overlap.replaceAndMap_delivers placed member restored
    (fun condition => (permitted condition).mappable region member) fun _ => id

theorem mprotectSeveralRegions_delivers (enumerable : healthy → space.regionTree.Enumerable range)
    (notContaining : ∀ region ∈ space.regionTree.regions,
      ¬ (region.base ≤ range.base ∧ range.stop ≤ region.stop)) :
    Delivers (Live healthy) (process.mprotectSeveralRegions boot prot range)
      space fun _ later => ∃ regions, Changes space range (protToRegionAccessFlags prot) later
          regions := by
  apply Delivers.bind (findRegionsIntersecting_delivers placed bounded nonempty)
  intro regions found ⟨sameFound, enumerates⟩
  have members : ∀ region ∈ regions, region ∈ space.regionTree.regions :=
    fun region member => enumerates.sublist.subset member
  have crossing : Crossing range regions := ⟨enumerates.meets, fun region member =>
      placed.separated.nonempty region (members region member),
      placed.separated.ordered.sublist enumerates.sublist⟩
  obtain ⟨bound, fullIff⟩ := crossing.coveredSize_eq_iff nonempty
  have covered : healthy → ∀ address, range.Holds address →
      ∃ region ∈ regions, region.range.Holds address := by
    intro condition address holds
    obtain ⟨region, member, regionHolds⟩ := (permitted condition).covered address holds
    refine ⟨region, ?_, regionHolds⟩
    apply enumerates.complete.mpr (enumerable condition) region member
    exact ⟨lt_of_le_of_lt regionHolds.1 holds.2, lt_of_le_of_lt holds.1 regionHolds.2⟩
  apply Delivers.refuseIf_bind
  · intro live
    obtain ⟨region, member, _⟩ := covered live.1 range.base
      ⟨Nat.le_refl _, Nat.lt_add_of_pos_right nonempty⟩
    cases regions with
    | nil => cases member
    | cons head rest => rfl
  · intro _
    have protectable : healthy → ∀ region ∈ regions,
        Protectable process prot region := fun condition region member =>
      (permitted condition).protectable region (members region member)
        (enumerates.meets region member)
    have small : range.size < 2 ^ 64 := lt_of_le_of_lt (le_add_left _ _) bounded
    apply Delivers.bind (checkRegions_delivers bounded nonempty
      (fun region member => placed.regionBounded (members region member))
      crossing protectable (by omega))
    intro fullSize checked ⟨fullSizeEq, sameChecked⟩
    rw [Nat.zero_add] at fullSizeEq
    apply Delivers.refuseIf_bind
    · intro live
      rw [fullSizeEq, fullIff.mpr (covered live.1)]
      exact bne_self_eq_false _
    · intro full
      have sizeEq : coveredSize range regions = range.size := by
        rw [← fullSizeEq]
        simpa using full
      have sameTree : checked.regionTree = space.regionTree := sameChecked.trans sameFound
      have listed : Listed checked.regionTree range regions := by
        rw [sameTree]
        exact ⟨placed, bounded, pages, nonempty, members, enumerates.meets, crossing.ordered⟩
      apply Delivers.weaken (mprotectRegions_delivers listed
        (fun region member => notContaining region (members region member))
        fun condition region member =>
          (permitted condition).mappable region (members region member))
      intro _ later rewritten
      rw [sameTree] at rewritten
      have covers := fullIff.mp sizeEq
      refine ⟨regions, members, covers, rewritten, ?_⟩
      apply enumerates.complete.mp
      intro region member meets
      obtain ⟨address, holds, inRange⟩ := RegionTree.exists_common meets (by
        have order := placed.separated.nonempty region member
        unfold Region.base Region.stop VirtualRange.stop at order
        omega) nonempty
      obtain ⟨other, otherMember, otherHolds⟩ := covers address inRange
      rw [placed.separated.eq_of_covers member (members other otherMember) holds otherHolds]
      exact otherMember

end

section

variable {space : AddressSpace} {boot : BootInfo} {process : Process} {prot : BitVec 32}
  {addr size : Nat} {range : VirtualRange}

theorem Permitted.isUserRange (permitted : Permitted boot process tree range prot)
    (bounded : range.Bounded) : boot.isUserRange range = true := by
  have nonempty := permitted.nonempty
  have userAddress : ∀ address, range.Holds address → boot.isUserAddress address = true := by
    intro address holds
    obtain ⟨region, member, regionHolds⟩ := permitted.covered address holds
    apply decide_eq_true
    exact lt_of_lt_of_le regionHolds.2 (permitted.mappable region member).below
  have first := userAddress range.base ⟨Nat.le_refl _, Nat.lt_add_of_pos_right nonempty⟩
  have last := userAddress (range.base + (range.size - 1)) (by
    unfold VirtualRange.Holds VirtualRange.stop
    omega)
  have order : ¬ range.endAddress < range.base := by
    rw [bounded.endAddress]
    unfold VirtualRange.stop
    omega
  unfold VirtualRange.Bounded at bounded
  have lastEq : offsetAddress range.base (range.size - 1) =
      range.base + (range.size - 1) := mod_eq_of_lt (by omega)
  unfold BootInfo.isUserRange
  rw [if_neg order, first, lastEq, last]
  simp

theorem requireExecPromise_delivers (promised : healthy → process.hasPromises = true →
      Prot.exec prot = true → process.hasPromised .protExec = true) :
    Delivers (Live healthy) (process.requireExecPromise prot) space (SameTree space) := by
  unfold requireExecPromise
  split
  next execute =>
    apply Delivers.refuseIf
    · intro live
      cases pledged : process.hasPromises with
      | false => rfl
      | true =>
        rw [promised live.1 pledged execute]
        rfl
    · intro _
      rfl
  · exact Delivers.pure rfl

section

variable (placed : space.regionTree.WellPlaced)

include placed

theorem mprotectRange_delivers (bounded : range.Bounded)
    (pages : range.PageAligned) (nonempty : 0 < range.size)
    (permitted : healthy → Permitted boot process space.regionTree range prot)
    (enumerable : healthy → space.regionTree.Enumerable range) :
    Delivers (Live healthy) (match findRegionFromRange space.regionTree range with
        | some wholeRegion =>
          process.mprotectWholeRegion boot prot wholeRegion
        | none =>
          match space.regionTree.findRegionContaining range with
          | some oldRegion =>
            process.mprotectInContainingRegion boot prot oldRegion range
          | none => process.mprotectSeveralRegions boot prot range)
      space fun _ later => ∃ regions, Changes space range (protToRegionAccessFlags prot) later
          regions := by
  have wholeIff : ∀ {region : Region},
      findRegionFromRange space.regionTree range = some region ↔ _ :=
    findRegionFromRange_eq_some placed pages bounded
  have containingIff : ∀ {region : Region},
      space.regionTree.findRegionContaining range = some region ↔ _ :=
    findRegionContaining_eq_some placed bounded nonempty
  cases whole : findRegionFromRange space.regionTree range with
  | some region =>
    obtain ⟨member, same⟩ := wholeIff.mp whole
    exact mprotectWholeRegion_delivers placed nonempty permitted member same
  | none =>
    cases containing : space.regionTree.findRegionContaining range with
    | some region =>
      obtain ⟨member, above, below⟩ := containingIff.mp containing
      apply mprotectInContainingRegion_delivers placed bounded pages
        nonempty permitted member above below
      by_contra inside
      have same : region.range = range := VirtualRange.eq_of_bounds
        (Nat.le_antisymm above (Nat.le_of_not_lt fun low => inside (.inl low)))
        (Nat.le_antisymm (Nat.le_of_not_lt fun high => inside (.inr high)) below)
      rw [wholeIff.mpr ⟨member, same⟩] at whole
      cases whole
    | none =>
      apply mprotectSeveralRegions_delivers placed bounded pages nonempty permitted enumerable
      intro region member contains
      rw [containingIff.mpr ⟨member, contains⟩] at containing
      cases containing

theorem sysMprotect_delivers (word : addr < 2 ^ 64) (small : size < 2 ^ 64)
    (expandedRange : healthy → VirtualRange.expandToPageBoundaries addr size = .ok range)
    (permitted : healthy → Permitted boot process space.regionTree range prot)
    (enumerable : healthy → space.regionTree.Enumerable range) :
    Delivers (Live healthy) (process.sysMprotect boot addr size prot) space
      fun _ later => ∃ expanded regions,
        VirtualRange.expandToPageBoundaries addr size = .ok expanded ∧
        Changes space expanded (protToRegionAccessFlags prot) later regions := by
  apply Delivers.refuseIf_bind
  · intro live
    cases pledged : process.hasPromises with
    | false => rfl
    | true =>
      rw [(permitted live.1).stdio pledged]
      rfl
  · intro _
    apply Delivers.bind (requireExecPromise_delivers fun condition =>
      (permitted condition).protExec)
    intro _ promised samePromised
    apply Delivers.fallible_bind
    · intro live
      exact ⟨range, expandedRange live.1⟩
    intro actual actualEq
    have expanded := VirtualRange.expandToPageBoundaries_spec word small actualEq
    have sameRange : healthy → actual = range := by
      intro condition
      have equal := expandedRange condition
      rw [actualEq] at equal
      cases equal
      rfl
    apply Delivers.refuseIf_bind
    · intro live
      rw [sameRange live.1]
      exact beq_false_of_ne (ne_of_gt (permitted live.1).nonempty)
    · intro nonzero
      have nonempty := Nat.pos_of_ne_zero (ne_of_beq_false nonzero)
      apply Delivers.refuseIf_bind
      · intro live
        have bounded := expanded.bounded
        rw [sameRange live.1] at bounded ⊢
        rw [(permitted live.1).isUserRange bounded]
        rfl
      · intro _
        apply Delivers.bind readTree_delivers
        intro tree _ ⟨treeEq, spaceEq⟩
        have sameTree : promised.regionTree = space.regionTree := samePromised
        rw [treeEq, spaceEq]
        apply Delivers.weaken (mprotectRange_delivers
          (sameTree ▸ placed) expanded.bounded expanded.pages nonempty
          (fun condition => by
            rw [sameTree, sameRange condition]
            exact permitted condition)
          (fun condition => by
            rw [sameTree, sameRange condition]
            exact enumerable condition))
        intro _ later ⟨regions, changes⟩
        refine ⟨actual, regions, actualEq, ?_⟩
        obtain ⟨members, covers, rewritten, complete⟩ := changes
        rw [sameTree] at members rewritten complete
        exact ⟨members, covers, rewritten, complete⟩

/-- The range has the access and is mapped as before in all else; what lies
outside is not changed. -/
structure Protected (tree : RegionTree) (range : VirtualRange)
    (access : Access) (later : RegionTree) : Prop where
  inside : ∀ address, range.Holds address → ∃ mapping, tree.mappingAt address = some mapping ∧
    later.mappingAt address = some { mapping with access := access }
  outside : ∀ address, ¬ range.Holds address → later.mappingAt address = tree.mappingAt address

theorem Changes.protected (changes : Changes space range access later regions) :
    Protected space.regionTree range access later.regionTree := by
  constructor
  · intro address holds
    obtain ⟨region, member, regionHolds⟩ := changes.covers address holds
    have mapped := placed.mappingAt_of_mem (changes.members region member) regionHolds
    refine ⟨_, mapped, ?_⟩
    rw [changes.rewritten.inside address holds ⟨region, member, regionHolds⟩, mapped]
    rfl
  · intro address outside
    exact changes.rewritten.outside address fun inRange => absurd inRange outside

end

/-- A successful `mprotect` changes the access of the range and nothing else.
With enough memory, a permitted one succeeds exactly when the enumeration of
the regions is complete. -/
theorem sysMprotect_correct (boot : BootInfo) (process : Process)
    (prot : BitVec 32) (placed : space.regionTree.WellPlaced)
    (word : addr < 2 ^ 64) (small : size < 2 ^ 64) :
    (∀ later, outcome (process.sysMprotect boot addr size prot) space = some (.ok (), later) →
      ∃ range, VirtualRange.expandToPageBoundaries addr size = .ok range ∧
        Protected space.regionTree range (protToRegionAccessFlags prot) later.regionTree) ∧
    (∀ range, VirtualRange.expandToPageBoundaries addr size = .ok range →
      Permitted boot process space.regionTree range prot → (∀ index, space.memory index = true) →
      ((∃ later, outcome (process.sysMprotect boot addr size prot) space = some (.ok (), later)) ↔
        space.regionTree.Enumerable range)) := by
  have sound : ∀ later, outcome (process.sysMprotect boot addr size prot) space =
        some (.ok (), later) →
      ∃ expanded regions, VirtualRange.expandToPageBoundaries addr size = .ok expanded ∧
        Changes space expanded (protToRegionAccessFlags prot) later regions := by
    intro later success
    have never : ∀ {statement : Prop}, False → statement := False.elim
    have delivers := sysMprotect_delivers placed word small
      (never : False → _ = Except.ok (⟨0, 0⟩ : VirtualRange))
      (never : False → Permitted boot process _ _ prot) never
    exact (delivers.sound () later success).1
  constructor
  · intro later success
    obtain ⟨range, regions, expandedEq, changes⟩ := sound later success
    exact ⟨range, expandedEq, changes.protected placed⟩
  · intro range expandedEq permitted granted
    constructor
    · intro ⟨later, success⟩
      obtain ⟨other, regions, otherEq, changes⟩ := sound later success
      rw [expandedEq] at otherEq
      cases otherEq
      exact changes.enumerable
    · intro enumerable
      have delivers : Delivers (Live True) (process.sysMprotect boot addr size prot) space _ :=
        sysMprotect_delivers placed word small (fun _ => expandedEq)
          (fun _ => permitted) (fun _ => enumerable)
      obtain ⟨_, later, success⟩ := delivers.succeeds ⟨trivial, granted⟩
      exact ⟨later, success⟩

end

def plainProcess : Process where
  hasPromises := false
  hasPromised := fun _ => false
  axAllowed := false
  wxAllowed := false
  rejectTransitionToExecutableFromWritableProt := false

theorem twoMappings_permitted (nonempty : 0 < range.size) (above : 0x20000 ≤ range.base)
    (below : range.stop ≤ 0x24000) :
    Permitted ⟨0x2000000000⟩ plainProcess twoMappings.regionTree range 1#32 := by
  have cases : ∀ {property : Region → Prop}, property (anonymousRegion 0x20000 0x3000) →
      property (anonymousRegion 0x23000 0x1000) →
      ∀ region ∈ twoMappings.regionTree.regions, property region := by
    intro property first second region member
    rcases List.mem_cons.mp member with rfl | rest
    · exact first
    · rw [List.mem_singleton.mp rest]
      exact second
  refine ⟨nofun, nofun, nonempty, ?_, ?_, ?_⟩
  · intro address holds
    obtain ⟨start, stop⟩ := holds
    by_cases low : address < 0x23000
    · refine ⟨anonymousRegion 0x20000 0x3000, List.mem_cons_self, ?_, ?_⟩
      · change 0x20000 ≤ address
        omega
      · exact low
    · refine ⟨anonymousRegion 0x23000 0x1000, List.mem_cons_of_mem _ List.mem_cons_self, ?_, ?_⟩
      · exact Nat.le_of_not_lt low
      · change address < 0x24000
        omega
  · apply cases
    · intro _
      exact ⟨rfl, rfl, rfl, nofun⟩
    · intro _
      exact ⟨rfl, rfl, rfl, nofun⟩
  · apply cases
    · exact ⟨fun _ => rfl, by decide, by decide, by decide⟩
    · exact ⟨fun _ => rfl, by decide, by decide, by decide⟩

theorem sysMprotect_correct_onePage :
    ∃ later, outcome (plainProcess.sysMprotect ⟨0x2000000000⟩ 0x21000 0x1000
        1#32) twoMappings = some (.ok (), later) ∧
      ∃ range, VirtualRange.expandToPageBoundaries 0x21000 0x1000 = .ok range ∧
        Protected twoMappings.regionTree range ⟨true, false, false⟩ later.regionTree := by
  have member : anonymousRegion 0x20000 0x3000 ∈
      twoMappings.regionTree.regions := List.mem_cons_self
  have enumerates : twoMappings.regionTree.Enumerates ⟨0x21000, 0x1000⟩
      [anonymousRegion 0x20000 0x3000] :=
    twoMappings_placed.enumerates_of_contains member (by decide) (by decide) (by decide)
  have enumerable := enumerates.complete.mp fun region inTree meets => by
    rw [twoMappings_placed.eq_of_contains member inTree (by decide) (by decide) meets]
    exact List.mem_cons_self
  obtain ⟨sound, succeeds⟩ := sysMprotect_correct ⟨0x2000000000⟩
    plainProcess 1#32 twoMappings_placed (show 0x21000 < 2 ^ 64 by decide)
    (show 0x1000 < 2 ^ 64 by decide)
  obtain ⟨later, success⟩ := (succeeds ⟨0x21000, 0x1000⟩ rfl
    (twoMappings_permitted (by decide) (by decide) (by decide))
    (fun _ => rfl)).mpr enumerable
  exact ⟨later, success, sound later success⟩

/-- Changing the last of three pages and the page behind them fails for want
of memory, although all of it is mapped and every request for memory is
granted. -/
theorem sysMprotect_fails_with_memory :
    VirtualRange.expandToPageBoundaries 0x22000 0x2000 = .ok ⟨0x22000, 0x2000⟩ ∧
      Permitted ⟨0x2000000000⟩ plainProcess twoMappings.regionTree ⟨0x22000, 0x2000⟩ 1#32 ∧
      (∀ index, twoMappings.memory index = true) ∧
      (outcome (plainProcess.sysMprotect ⟨0x2000000000⟩ 0x22000 0x2000
        1#32) twoMappings).map Prod.fst = some (.error .ENOMEM) :=
  ⟨rfl, twoMappings_permitted (by decide) (by decide) (by decide), fun _ => rfl, rfl⟩

end Process

end MixUpOS.Kernel.Syscalls
