import MixUpOS.Kernel.Memory.AddressSpaceUnmap
import MixUpOS.Kernel.Syscalls.Mmap

/-!
# Changing the access of regions

The steps of `sys$mprotect` by the mappings before and after: setting the
access in place, replacing a part of a region, and adding up how much of a
range some regions cover.
-/

namespace MixUpOS.Kernel.Memory

open Library List

/-- The mapping with another access. -/
def Mapping.withAccess (access : Access) (mapping : Mapping) : Option Mapping :=
  some { mapping with access := access }

namespace RegionTree

variable {tree : RegionTree} {range : VirtualRange}

theorem WellPlaced.setAccess (placed : tree.WellPlaced) :
    (tree.setAccess region access).WellPlaced := by
  have sameRange : ∀ changed ∈ (tree.setAccess region access).regions,
      ∃ old ∈ tree.regions, changed.range = old.range := by
    intro changed member
    obtain ⟨old, oldMember, changedEq⟩ := Intervals.mem_update.mp member
    refine ⟨old, oldMember, ?_⟩
    rw [changedEq]
    split <;> rfl
  refine ⟨placed.bounded, ?_, ?_, ?_⟩
  · exact placed.separated.update (fun _ => rfl) (fun _ => rfl)
  · intro changed member
    obtain ⟨old, oldMember, same⟩ := sameRange changed member
    unfold Region.base Region.stop
    rw [same]
    exact placed.inside old oldMember
  · intro changed member
    obtain ⟨old, oldMember, same⟩ := sameRange changed member
    rw [same]
    exact placed.aligned old oldMember

theorem WellPlaced.mappingAt_setAccess (placed : tree.WellPlaced) (member : region ∈ tree.regions) :
    (tree.setAccess region access).mappingAt address =
      if region.range.Holds address then
        (region.mappingAt address).withAccess access
      else tree.mappingAt address := by
  have found : Intervals.lookup Region.base Region.stop address
      (tree.setAccess region access).regions =
        if region.range.Holds address then some (region.setAccess access)
        else Intervals.lookup Region.base Region.stop address tree.regions :=
    placed.separated.lookup_update member (fun _ => rfl) (fun _ => rfl)
  rw [mappingAt, found]
  split <;> rfl

theorem mem_setAccess_of_ne (otherMember : other ∈ tree.regions)
    (differ : other.base ≠ region.base) : other ∈ (tree.setAccess region access).regions :=
  Intervals.mem_update.mpr ⟨other, otherMember, (if_neg differ).symm⟩

theorem WellPlaced.rewritten_setAccess (placed : tree.WellPlaced) (member : region ∈ tree.regions)
    (above : range.base ≤ region.base) (below : region.stop ≤ range.stop) :
    tree.Rewritten (Mapping.withAccess access) range [region] (tree.setAccess region access) := by
  refine ⟨placed.setAccess, rfl, ?_, ?_, ?_⟩
  · intro other otherMember differ
    apply mem_setAccess_of_ne otherMember
    intro same
    apply differ
    rw [placed.separated.eq_of_start otherMember member same]
    exact mem_singleton_self _
  · intro address _ ⟨holder, holderMember, holds⟩
    rw [mem_singleton.mp holderMember] at holds
    rw [placed.mappingAt_setAccess member, if_pos holds, placed.mappingAt_of_mem member holds]
    rfl
  · intro address outside
    rw [placed.mappingAt_setAccess member, if_neg]
    intro holds
    apply outside _ region mem_cons_self holds
    exact ⟨Nat.le_trans above holds.1, Nat.lt_of_lt_of_le holds.2 below⟩

theorem WellPlaced.rewritten_same (placed : tree.WellPlaced)
    (member : region ∈ tree.regions) (same : region.access = access) :
    tree.Rewritten (Mapping.withAccess access) range [region] tree := by
  refine ⟨placed, rfl, fun _ otherMember _ => otherMember, ?_, fun _ _ => rfl⟩
  intro address _ ⟨holder, holderMember, holds⟩
  rw [mem_singleton.mp holderMember] at holds
  rw [placed.mappingAt_of_mem member holds, ← same]
  rfl

end RegionTree

/-- The number of bytes of the range in the regions. -/
def coveredSize (range : VirtualRange) (regions : List Region) : Nat := (regions.map fun region =>
    min region.stop range.stop - max region.base range.base).sum

theorem coveredSize_cons (range : VirtualRange) (region : Region)
    (rest : List Region) : coveredSize range (region :: rest) =
      (min region.stop range.stop - max region.base range.base) + coveredSize range rest := by
  simp [coveredSize]

/-- Regions in order that meet a range. -/
structure Crossing (range : VirtualRange) (regions : List Region) : Prop where
  meets : ∀ region ∈ regions, region.range.Meets range
  nonempty : ∀ region ∈ regions, region.base < region.stop
  ordered : regions.Pairwise fun region later => region.stop ≤ later.base

theorem Crossing.tail {range : VirtualRange} (crossing : Crossing range (region :: rest)) :
    Crossing range rest :=
  ⟨(forall_mem_cons.mp crossing.meets).2, (forall_mem_cons.mp crossing.nonempty).2,
    (pairwise_cons.mp crossing.ordered).2⟩

/-- Regions in order have no more bytes of the range than lie above `lower`,
and exactly as many if they leave no gap there. -/
theorem Crossing.coveredSize_from {range : VirtualRange} (crossing : Crossing range regions)
    (rangeNonempty : range.base < range.stop) (above : range.base ≤ lower)
    (below : lower ≤ range.stop) (starts : ∀ region ∈ regions, lower ≤ max region.base range.base) :
    coveredSize range regions ≤ range.stop - lower ∧
      (coveredSize range regions = range.stop - lower ↔
        ∀ address, lower ≤ address → address < range.stop →
          ∃ region ∈ regions, region.range.Holds address) := by
  induction regions generalizing lower with
  | nil =>
    refine ⟨Nat.zero_le _, ?_⟩
    constructor
    · intro full address start stop
      change 0 = range.stop - lower at full
      omega
    · intro covered
      by_contra short
      change ¬ 0 = range.stop - lower at short
      obtain ⟨region, member, _⟩ := covered lower (Nat.le_refl _) (by omega)
      cases member
  | cons region rest ih =>
    have start := starts region mem_cons_self
    have low : region.base < range.stop := (crossing.meets region mem_cons_self).1
    have high : range.base < region.stop := (crossing.meets region mem_cons_self).2
    have order := crossing.nonempty region mem_cons_self
    have later := (pairwise_cons.mp crossing.ordered).1
    have aboveNext : range.base ≤ min region.stop range.stop := by omega
    have startsNext : ∀ other ∈ rest, min region.stop range.stop ≤ max other.base range.base := by
      intro other member
      have after := later other member
      omega
    obtain ⟨bound, full⟩ := ih crossing.tail aboveNext (Nat.min_le_right _ _) startsNext
    rw [coveredSize_cons]
    refine ⟨by omega, ?_⟩
    constructor
    · intro equal address first last
      by_cases inside : address < min region.stop range.stop
      · refine ⟨region, mem_cons_self, ?_, ?_⟩
        · change region.base ≤ address
          omega
        · change address < region.stop
          omega
      · obtain ⟨other, member, holds⟩ := full.mp (by omega) address (by omega) last
        exact ⟨other, mem_cons_of_mem _ member, holds⟩
    · intro covered
      have noGap : max region.base range.base = lower := by
        obtain ⟨holder, member, holds⟩ := covered lower (Nat.le_refl _) (by omega)
        have holderStart : holder.base ≤ lower := holds.1
        rcases mem_cons.mp member with rfl | inRest
        · omega
        · have after := later holder inRest
          omega
      have restFull := full.mpr (by
        intro address first last
        obtain ⟨holder, member, holds⟩ := covered address (by omega) last
        have holderStop : address < holder.stop := holds.2
        rcases mem_cons.mp member with rfl | inRest
        · omega
        · exact ⟨holder, inRest, holds⟩)
      omega

theorem Crossing.coveredSize_eq_iff {range : VirtualRange} (crossing : Crossing range regions)
    (rangeNonempty : 0 < range.size) :
    coveredSize range regions ≤ range.size ∧ (coveredSize range regions = range.size ↔
        ∀ address, range.Holds address → ∃ region ∈ regions, region.range.Holds address) := by
  have order : range.base < range.stop := Nat.lt_add_of_pos_right rangeNonempty
  have sizeEq : range.stop - range.base = range.size := Nat.add_sub_cancel_left _ _
  obtain ⟨bound, full⟩ := crossing.coveredSize_from order (Nat.le_refl _)
    (Nat.le_of_lt order) (fun region _ => Nat.le_max_right _ _)
  rw [sizeEq] at bound full
  refine ⟨bound, full.trans ?_⟩
  constructor
  · intro covered address holds
    exact covered address holds.1 holds.2
  · intro covered address start stop
    exact covered address ⟨start, stop⟩

end MixUpOS.Kernel.Memory

namespace MixUpOS.Kernel.Syscalls

open Library Library.Programs
open Kernel.Memory
open Kernel.Memory.AddressSpace

namespace Process

/-- The part of a region that lies in the range. -/
structure Overlap (range : VirtualRange) (region : Region) (part : VirtualRange) : Prop where
  above : region.base ≤ part.base
  below : part.stop ≤ region.stop
  nonempty : 0 < part.size
  pages : part.PageAligned
  same : ∀ address, region.range.Holds address → (part.Holds address ↔ range.Holds address)
  base_eq : part.base = max range.base region.base
  stop_eq : part.stop = min range.stop region.stop

section

variable {range : VirtualRange}

theorem exists_overlap (bounded : range.Bounded) (regionBounded : region.range.Bounded)
    (pages : range.PageAligned) (regionPages : region.range.PageAligned)
    (meets : region.range.Meets range) (nonempty : 0 < range.size)
    (regionNonempty : 0 < region.range.size) :
    ∃ part, range.intersect region.range = some part ∧ Overlap range region part := by
  refine ⟨_, VirtualRange.intersect_eq bounded regionBounded
    ⟨meets.2, meets.1⟩ nonempty regionNonempty, ?_⟩
  obtain ⟨low, high⟩ := meets
  obtain ⟨basePages, sizePages⟩ := pages
  obtain ⟨regionBasePages, regionSizePages⟩ := regionPages
  unfold VirtualRange.stop pageSize at *
  constructor
  · exact Nat.le_max_right _ _
  · unfold Region.stop VirtualRange.stop
    dsimp only
    omega
  · dsimp only
    omega
  · unfold VirtualRange.PageAligned pageSize
    dsimp only
    omega
  · intro address holds
    unfold VirtualRange.Holds VirtualRange.stop at *
    dsimp only
    omega
  · rfl
  · unfold Region.stop VirtualRange.stop
    dsimp only
    omega

section

variable (overlap : Overlap range region part)

include overlap

theorem Overlap.bounded (regionBounded : region.range.Bounded) : part.Bounded :=
  Nat.lt_of_le_of_lt overlap.below regionBounded

theorem Overlap.meets : region.range.Meets part :=
  VirtualRange.meets_of_contains overlap.nonempty overlap.above overlap.below

theorem Overlap.length_carvedParts
    (oneSide : (region.base < range.base) ≠ (range.stop < region.stop)) :
    (region.range.carvedParts part).length = 1 := by
  have start := overlap.base_eq
  have stop := overlap.stop_eq
  have before : region.range.base < part.base ↔ region.base < range.base := by
    change region.base < part.base ↔ _
    omega
  have after : part.stop < region.range.stop ↔ range.stop < region.stop := by
    change part.stop < region.stop ↔ _
    omega
  unfold VirtualRange.carvedParts
  rw [if_congr before rfl rfl, if_congr after rfl rfl]
  by_cases low : region.base < range.base
  · by_cases high : range.stop < region.stop
    · exact absurd (propext (iff_of_true low high)) oneSide
    · rw [if_pos low, if_neg high]
      rfl
  · by_cases high : range.stop < region.stop
    · rw [if_neg low, if_pos high]
      rfl
    · exact absurd (propext (iff_of_false low high)) oneSide

theorem Overlap.eq_range_iff :
    part = region.range ↔ range.base ≤ region.base ∧ region.stop ≤ range.stop := by
  have start := overlap.base_eq
  have stop := overlap.stop_eq
  constructor
  · intro whole
    have sameStart : part.base = region.base := congrArg VirtualRange.base whole
    have sameStop : part.stop = region.stop := congrArg VirtualRange.stop whole
    omega
  · intro ⟨above, below⟩
    exact VirtualRange.eq_of_bounds (show part.base = region.base by omega)
      (show part.stop = region.stop by omega)

end

section

variable {tree : RegionTree} (overlap : Overlap range region part) (placed : tree.WellPlaced)
  (member : region ∈ tree.regions)

include overlap placed member

theorem Overlap.carved : region.range.Carved part (region.range.carvedParts part) :=
  VirtualRange.carved_carvedParts overlap.meets (placed.aligned region member) overlap.pages

variable
  (restored : Restored region (region.range.carvedParts part) (tree.remove region).1 middle)

include restored

theorem Overlap.placeable : middle.Placeable part.size part := by
  have whole := placed.free_remove member
  have carved := overlap.carved placed member
  have free : (tree.remove region).1.Free part.base part.stop := by
    refine ⟨Nat.le_trans whole.above overlap.above, Nat.le_trans overlap.below whole.below, ?_⟩
    intro other otherMember
    rcases whole.avoids other otherMember with before | after
    · exact .inl (Nat.le_trans before overlap.above)
    · exact .inr (Nat.le_trans overlap.below after)
  exact ⟨⟨rfl, restored.free _ _ free carved.avoids⟩, overlap.nonempty, overlap.pages⟩

theorem Overlap.replaced : tree.Rewritten (Mapping.withAccess access) range [region]
      ((middle.insertAt (splitPart region part) part).setAccess
        (splitPart region part) access) := by
  have placeable := overlap.placeable placed member restored
  have inserted : (middle.insertAt (splitPart region part) part).WellPlaced :=
    restored.placed.insertAt placeable
  have newMember : splitPart region part ∈ (middle.insertAt (splitPart region part) part).regions :=
    Intervals.mem_insert.mpr (.inl rfl)
  have order : part.base < part.stop := Nat.lt_add_of_pos_right overlap.nonempty
  have partWithin : ∀ address, part.Holds address →
      region.range.Holds address := fun address holds =>
    ⟨Nat.le_trans overlap.above holds.1, Nat.lt_of_lt_of_le holds.2 overlap.below⟩
  have mapped : ∀ address, ((middle.insertAt (splitPart region part) part).setAccess
        (splitPart region part) access).mappingAt address =
      if part.Holds address then
        (region.mappingAt address).withAccess access
      else middle.mappingAt address := by
    intro address
    rw [inserted.mappingAt_setAccess newMember, restored.placed.mappingAt_insertAt placeable]
    by_cases holds : part.Holds address
    · have bound : address < 2 ^ 64 :=
        Nat.lt_trans (partWithin address holds).2 (placed.regionBounded member)
      rw [splitPart_mappingAt overlap.above holds bound]
      change (if part.Holds address then _ else _) = _
      rw [if_pos holds, if_pos holds]
    · change (if part.Holds address then _ else _) = _
      rw [if_neg holds, if_neg holds, if_neg holds]
  have rest := restored.rewritten placed member (overlap.carved placed member)
  refine ⟨inserted.setAccess, rest.total, ?_, ?_, ?_⟩
  · intro other otherMember differ
    have inMiddle := rest.others other otherMember differ
    apply RegionTree.mem_setAccess_of_ne (Intervals.mem_insert.mpr (.inr inMiddle))
    intro sameBase
    change other.base = part.base at sameBase
    have otherOrder := restored.placed.separated.nonempty other inMiddle
    rcases placeable.free.avoids other inMiddle with before | after <;> omega
  · intro address inRange ⟨holder, holderMember, holds⟩
    rw [List.mem_singleton.mp holderMember] at holds
    rw [mapped, if_pos ((overlap.same address holds).mpr inRange),
      placed.mappingAt_of_mem member holds]
    rfl
  · intro address outside
    have notPart : ¬ part.Holds address := by
      intro holds
      have inRegion := partWithin address holds
      exact outside ((overlap.same address inRegion).mp holds) region List.mem_cons_self inRegion
    rw [mapped, if_neg notPart]
    apply rest.outside
    intro holds
    exact absurd holds notPart

end

end

/-- A region that passes the checks of `sys$mprotect`. -/
structure Protectable (process : Process) (prot : BitVec 32) (region : Region) : Prop where
  isMmap : region.mmap = true
  notImmutable : region.immutable = false
  allowed : process.validateMmapProt prot region.stack
    region.vmobject.isAnonymous (some region) = .ok ()
  inodeAllowed : region.vmobject.isInode = true →
    validateInodeMmapProt prot region.mmappedFromReadable
      region.mmappedFromWritable region.shared = .ok ()

section

variable {range : VirtualRange}

theorem checkMmapProt_delivers (protectable : healthy → Protectable process prot region) :
    Delivers (Live healthy) (process.checkMmapProt prot region) space (SameTree space) := by
  apply Delivers.refuseIf_bind
  · intro live
    rw [(protectable live.1).isMmap]
    rfl
  · intro _
    apply Delivers.refuseIf_bind
    · intro live
      exact (protectable live.1).notImmutable
    intro _
    apply Delivers.fallible
    · intro live
      exact ⟨(), (protectable live.1).allowed⟩
    · intro _ _
      rfl

theorem checkInodeProt_delivers (protectable : healthy → Protectable process prot region) :
    Delivers (Live healthy) (checkInodeProt prot region) space (SameTree space) := by
  apply Delivers.fallible
  · intro live
    split
    next inode => exact ⟨(), (protectable live.1).inodeAllowed inode⟩
    · exact ⟨(), rfl⟩
  · intro _ _
    rfl

theorem checkRegions_delivers {regions : List Region} (bounded : range.Bounded)
    (nonempty : 0 < range.size) (regionBounded : ∀ region ∈ regions, region.range.Bounded)
    (crossing : Crossing range regions)
    (protectable : healthy → ∀ region ∈ regions, Protectable process prot region)
    (fits : found + coveredSize range regions < 2 ^ 64) :
    Delivers (Live healthy) (process.checkRegions prot range regions found)
      space fun result later =>
        result = found + coveredSize range regions ∧
        later.regionTree = space.regionTree := by
  induction regions generalizing found space with
  | nil => exact Delivers.pure ⟨rfl, rfl⟩
  | cons region rest ih =>
    have first : healthy → Protectable process prot region :=
      fun condition => protectable condition region List.mem_cons_self
    have regionNonempty : 0 < region.range.size := by
      have order := crossing.nonempty region List.mem_cons_self
      unfold Region.base Region.stop VirtualRange.stop at order
      omega
    have intersected := VirtualRange.intersect_eq (regionBounded region List.mem_cons_self) bounded
      (crossing.meets region List.mem_cons_self) regionNonempty nonempty
    rw [coveredSize_cons] at fits ⊢
    apply Delivers.bind (checkMmapProt_delivers first)
    intro _ second sameSecond
    apply Delivers.bind (checkInodeProt_delivers first)
    intro _ third sameThird
    rw [intersected]
    change Delivers _ (process.checkRegions prot range rest ((found + (min region.stop range.stop -
        max region.base range.base)) % 2 ^ 64)) _ _
    apply Delivers.weaken (ih (List.forall_mem_cons.mp regionBounded).2 crossing.tail
      (fun condition => (List.forall_mem_cons.mp (protectable condition)).2)
      (by omega))
    intro result later ⟨resultEq, sameTree⟩
    refine ⟨by omega, ?_⟩
    exact sameTree.trans (Eq.trans sameThird sameSecond)

end

section

variable {space : AddressSpace} {range : VirtualRange}

theorem setAccess_delivers : Delivers (Live healthy)
    (setAccess region access) space fun result later =>
      result = region.setAccess access ∧
      later.regionTree = space.regionTree.setAccess region access := by
  apply Delivers.bind readTree_delivers
  intro tree _ ⟨treeEq, spaceEq⟩
  rw [treeEq]
  apply Delivers.bind (writeTree_delivers _)
  intro _ later written
  exact Delivers.pure ⟨rfl, written⟩

theorem mappable_setAccess (mappable : Mappable boot region) :
    Mappable boot (region.setAccess access) :=
  ⟨mappable.inode, mappable.above, mappable.below, mappable.nonempty⟩

theorem setAccessAndRemap_delivers (mappable : healthy → Mappable boot region) :
    Delivers (Live healthy) (setAccessAndRemap boot region access) space
      fun _ later => later.regionTree = space.regionTree.setAccess region access := by
  apply Delivers.bind setAccess_delivers
  intro changed middle ⟨changedEq, middleEq⟩
  rw [changedEq]
  apply Delivers.weaken (Delivers.mustSucceed (map_delivers
    fun condition => mappable_setAccess (mappable condition)))
  intro _ later sameTree
  exact Eq.trans sameTree middleEq

section

variable {tree : RegionTree} (overlap : Overlap range region part) (placed : tree.WellPlaced)
  (member : region ∈ tree.regions) (restored : Restored region (region.range.carvedParts part)
    (tree.remove region).1 space.regionTree)

include overlap placed member restored

theorem Overlap.replacePart_delivers :
    Delivers (Live healthy) (replacePart region part access) space fun result later =>
        result = (splitPart region part).setAccess access ∧
        tree.Rewritten (Mapping.withAccess access) range [region] later.regionTree := by
  apply Delivers.bind (tryAllocateSplitRegion_delivers restored.placed
    (overlap.placeable placed member restored))
  intro new middle ⟨newEq, middleEq⟩
  rw [newEq]
  apply Delivers.weaken setAccess_delivers
  intro result later ⟨resultEq, laterEq⟩
  refine ⟨resultEq, ?_⟩
  rw [laterEq, middleEq]
  exact overlap.replaced placed member restored

theorem Overlap.replaceAndMap_delivers (mappable : healthy → Mappable boot region)
    (left : ∀ other ∈ adjacent, other ∈ (region.range.carvedParts part).map (splitPart region)) :
    Delivers (Live healthy) (do
        let newRegion ← replacePart region part access
        mapAll boot adjacent
        map boot newRegion)
      space fun _ later =>
        tree.Rewritten (Mapping.withAccess access) range [region] later.regionTree := by
  apply Delivers.bind (overlap.replacePart_delivers placed member restored)
  intro new second ⟨newEq, rewritten⟩
  apply Delivers.bind (mapAll_delivers fun condition other otherMember => splitParts_mappable
    (mappable condition) (overlap.carved placed member) other (left other otherMember))
  intro _ third sameThird
  rw [newEq]
  apply Delivers.weaken (map_delivers fun condition => mappable_setAccess (splitPart_mappable
    (mappable condition) overlap.above overlap.below overlap.nonempty overlap.pages))
  intro _ later sameLater
  rw [Eq.trans sameLater sameThird]
  exact rewritten

end

end

end Process

end MixUpOS.Kernel.Syscalls
