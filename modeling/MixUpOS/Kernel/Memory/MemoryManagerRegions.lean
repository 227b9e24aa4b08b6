import MixUpOS.Kernel.Memory.MemoryManager
import MixUpOS.Kernel.Memory.PhysicalRegionInvariant

/-!
# The physical regions of the memory manager

The manager keeps regions with disjoint address ranges.  Its loops over the
regions take pages from one of them and return a page to the region that
contains it, so that each region holds its part of the pages taken.
-/

namespace MixUpOS.Kernel.Memory

open PhysicalRegion List

namespace PhysicalRegion

/-- The region holds those of the pages taken that lie in its range. -/
structure Owned (taken : List Nat) (region : PhysicalRegion) : Prop where
  fits : region.zoneStart region.zones.length ≤ (region.upper - region.lower) / pageSize
  holds : ∃ used, Loan.Holds ⟨region, taken.filter region.contains⟩ used

/-- The address ranges of two regions do not meet. -/
def RangesApart (region other : PhysicalRegion) : Prop :=
  region.upper ≤ other.lower ∨ other.upper ≤ region.lower

section

variable {region : PhysicalRegion}
theorem contains_iff :
    region.contains paddr = true ↔ region.lower ≤ paddr ∧ paddr < region.upper := by
  simp [PhysicalRegion.contains]

theorem SameLayout.contains (same : SameLayout region result) :
    result.contains = region.contains := by
  funext paddr
  rw [PhysicalRegion.contains, same.lower, same.upper]
  rfl

section

variable (fits : region.zoneStart region.zones.length ≤ (region.upper - region.lower) / pageSize)

include fits

theorem zone_inside (within : index < region.zones.length) :
    region.pageAddress index (2 ^ region.zoneOrder index) ≤
      region.lower + (region.upper - region.lower) := by
  have size : pageSize = 4096 := rfl
  have next := zoneStart_succ region index
  have last : region.zoneStart (index + 1) ≤
      region.zoneStart region.zones.length := zoneStart_mono region within
  rw [pageAddress]
  rw [size] at fits ⊢
  omega

end

theorem not_contains_of_apart (apart : RangesApart region other)
    (inside : region.contains paddr = true) : other.contains paddr = false := by
  rw [contains_iff] at inside
  rw [Bool.eq_false_iff, Ne, contains_iff]
  unfold RangesApart at apart
  omega

theorem RangesApart.congr (apart : RangesApart region other) (same : SameLayout region result)
    (otherSame : SameLayout other otherResult) : RangesApart result otherResult := by
  unfold RangesApart
  rw [same.lower, same.upper, otherSame.lower, otherSame.upper]
  exact apart

theorem SameLayout.refl (region : PhysicalRegion) :
    SameLayout region region := ⟨rfl, rfl, rfl, rfl, rfl⟩

theorem SameLayout.fits (same : SameLayout region result)
    (fits : region.zoneStart region.zones.length ≤ (region.upper - region.lower) / pageSize) :
    result.zoneStart result.zones.length ≤ (result.upper - result.lower) / pageSize := by
  have start : result.zoneStart = region.zoneStart := by
    funext index
    rw [zoneStart, same.largeZones]
    rfl
  rw [start, same.zones, same.upper, same.lower]
  exact fits

section

variable (owned : Owned taken region)

include owned

theorem Owned.frame (outside : ∀ paddr ∈ new, region.contains paddr = false) :
    Owned (new ++ taken) region := by
  refine ⟨owned.fits, ?_⟩
  have nothing : new.filter region.contains = [] := by
    rw [filter_eq_nil_iff]
    intro paddr member
    rw [outside paddr member]
    exact Bool.false_ne_true
  rw [filter_append, nothing]
  exact owned.holds

theorem Owned.frame_erase (outside : region.contains paddr = false) :
    Owned (taken.erase paddr) region := by
  refine ⟨owned.fits, ?_⟩
  have same : (taken.erase paddr).filter region.contains = taken.filter region.contains := by
    rw [← erase_filter, erase_of_not_mem]
    rw [mem_filter, outside]
    rintro ⟨_, wrong⟩
    cases wrong
  rw [same]
  exact owned.holds

theorem Owned.scribble (member : paddr ∈ taken)
    (present : region.zones[index]? = some zone) (contains : zone.contains paddr = true)
    (entry : FreelistEntry) : Owned taken (region.setZone index (zone.scribble paddr entry)) := by
  have same := sameLayout_setZone region index (zone.scribble paddr entry)
  obtain ⟨used, holds⟩ := owned.holds
  refine ⟨same.fits owned.fits, used, ?_⟩
  apply holds.scribble _ present contains entry
  refine mem_filter.mpr ⟨member, ?_⟩
  have size : pageSize = 4096 := rfl
  have last := zone_inside owned.fits (List.getElem?_eq_some_iff.mp present).1
  have sound : Sound region used := holds.sound
  obtain ⟨base, accounts⟩ := sound.zone present
  rw [PhysicalZone.contains, Bool.and_eq_true, decide_eq_true_iff,
    decide_eq_true_iff, base, accounts.pageCount] at contains
  rw [contains_iff]
  unfold pageAddress at last contains
  rw [size] at last contains
  omega

end

theorem Owned.extend {pages : Finset Nat}
    (fits : region.zoneStart region.zones.length ≤ (region.upper - region.lower) / pageSize)
    (holds : Loan.Holds ⟨region, taken.filter region.contains⟩ used)
    (takes : Taken region used index pages result) (newNodup : new.Nodup)
    (newPages : ∀ paddr ∈ new, ∃ page ∈ pages, paddr = region.pageAddress index page) :
    Owned (new ++ taken) result ∧ ∀ paddr ∈ new, result.contains paddr = true := by
  have contained : ∀ paddr ∈ new, region.contains paddr = true := by
    intro paddr member
    obtain ⟨page, inPages, rfl⟩ := newPages paddr member
    have inside := takes.inside page inPages
    have size : pageSize = 4096 := rfl
    have last := zone_inside fits takes.within
    rw [contains_iff]
    unfold pageAddress at last ⊢
    rw [size] at last ⊢
    omega
  rw [takes.same.contains]
  refine ⟨⟨takes.same.fits fits, ?_⟩, contained⟩
  have all : new.filter region.contains = new := filter_eq_self.mpr contained
  rw [takes.same.contains, filter_append, all]
  exact ⟨_, holds.extend takes newNodup newPages⟩

end

end PhysicalRegion

namespace GlobalData

/-- The pages that are free in the zones of the given regions. -/
def freePages (regions : List PhysicalRegion) : Nat := (regions.map PhysicalRegion.freePages).sum

/-- The new pages were taken from one of the regions, which has `amount` free
pages less. -/
structure Served (regions : List PhysicalRegion) (taken new : List Nat)
    (amount : Nat) (result : List PhysicalRegion) : Prop where
  owned : ∀ region ∈ result, Owned (new ++ taken) region
  same : List.Forall₂ SameLayout regions result
  contained : ∃ region ∈ regions, ∀ paddr ∈ new, region.contains paddr = true
  free : freePages result + amount = freePages regions

theorem forall₂_sameLayout_refl (regions : List PhysicalRegion) :
    Forall₂ SameLayout regions regions := by
  induction regions with
  | nil => exact .nil
  | cons region rest ih => exact .cons (SameLayout.refl region) ih

theorem Served.head (owned : ∀ region ∈ rest, Owned taken region)
    (apart : ∀ other ∈ rest, RangesApart region other) (servedOwned : Owned (new ++ taken) served)
    (contained : ∀ paddr ∈ new, served.contains paddr = true) (same : SameLayout region served)
    (free : served.freePages + amount = region.freePages) :
    Served (region :: rest) taken new amount (served :: rest) := by
  rw [same.contains] at contained
  constructor
  · intro other member
    rcases mem_cons.mp member with rfl | later
    · exact servedOwned
    · apply (owned other later).frame
      intro paddr isNew
      exact not_contains_of_apart (apart other later) (contained paddr isNew)
  · exact .cons same (forall₂_sameLayout_refl rest)
  · exact ⟨region, mem_cons_self, contained⟩
  · simp only [freePages, map_cons, sum_cons]
    omega

theorem Served.tail (owned : Owned taken region) (apart : ∀ other ∈ rest, RangesApart region other)
    (tail : Served rest taken new amount result) :
    Served (region :: rest) taken new amount (region :: result) := by
  obtain ⟨holder, holderMember, contained⟩ := tail.contained
  constructor
  · intro other member
    rcases mem_cons.mp member with rfl | later
    · apply owned.frame
      intro paddr isNew
      exact not_contains_of_apart (apart holder holderMember).symm (contained paddr isNew)
    · exact tail.owned other later
  · exact .cons (SameLayout.refl region) tail.same
  · exact ⟨holder, mem_cons_of_mem _ holderMember, contained⟩
  · have free := tail.free
    simp only [freePages, map_cons, sum_cons] at free ⊢
    omega

theorem takeFromRegions_spec (owned : ∀ region ∈ regions, Owned taken region)
    (apart : regions.Pairwise RangesApart) :
    (takeFromRegions regions = some (regions, none) ∧ freePages regions = 0) ∨
    ∃ result paddr, takeFromRegions regions = some (result, some paddr) ∧
      Served regions taken [paddr] 1 result := by
  induction regions with
  | nil => exact .inl ⟨rfl, rfl⟩
  | cons region rest ih =>
    obtain ⟨regionOwned, restOwned⟩ := forall_mem_cons.mp owned
    obtain ⟨regionApart, restApart⟩ := pairwise_cons.mp apart
    obtain ⟨used, holds⟩ := regionOwned.holds
    rcases holds.sound.takeFreePage with
      ⟨exhausted, nothing⟩ | ⟨served, index, page, taking, takes⟩
    · have empty : region.freePages = 0 := holds.sound.freePages_of_no_usable exhausted
      rcases ih restOwned restApart with
        ⟨skipped, noneFree⟩ | ⟨result, paddr, found, tail⟩
      · left
        constructor
        · simp [takeFromRegions, nothing, skipped]
        · simpa [freePages, empty] using noneFree
      · right
        refine ⟨region :: result, paddr, ?_, Served.tail regionOwned regionApart tail⟩
        simp [takeFromRegions, nothing, found]
    · right
      obtain ⟨servedOwned, contained⟩ := Owned.extend regionOwned.fits holds
        takes (nodup_singleton (region.pageAddress index page))
        (by simp)
      refine ⟨served :: rest, region.pageAddress index page, ?_,
        Served.head restOwned regionApart servedOwned contained takes.same takes.freePages⟩
      simp [takeFromRegions, taking]

theorem takeContiguousFromRegions_spec (heap : KernelHeap) {pageCount : Nat}
    (addressable : pageCount * pageSize < 2 ^ 64) (owned : ∀ region ∈ regions, Owned taken region)
    (apart : regions.Pairwise RangesApart) :
    takeContiguousFromRegions heap pageCount regions = none ∨
    takeContiguousFromRegions heap pageCount regions = some (regions, []) ∨
    ∃ result pages, takeContiguousFromRegions heap pageCount regions = some (result, pages) ∧
      pages ≠ [] ∧ pages.length = pageCount ∧ pageCount ≤ 2 ^ contiguousOrder pageCount ∧
      2 ^ contiguousOrder pageCount < 2 * pageCount ∧
      Served regions taken pages (2 ^ contiguousOrder pageCount) result := by
  induction regions with
  | nil => exact .inr (.inl rfl)
  | cons region rest ih =>
    obtain ⟨regionOwned, restOwned⟩ := forall_mem_cons.mp owned
    obtain ⟨regionApart, restApart⟩ := pairwise_cons.mp apart
    obtain ⟨used, holds⟩ := regionOwned.holds
    rcases holds.sound.takeContiguousFreePages heap addressable with
      nothing | ⟨stopped, _⟩ | ⟨served, index, number, taking, takes, pos, above, below⟩
    · rcases ih restOwned restApart with
        stopped | skipped | ⟨result, pages, found, nonempty, length, above, below, tail⟩
      · simp [takeContiguousFromRegions, nothing, stopped]
      · simp [takeContiguousFromRegions, nothing, skipped]
      · right
        right
        refine ⟨region :: result, pages, ?_, nonempty, length, above, below,
          Served.tail regionOwned regionApart tail⟩
        simp [takeContiguousFromRegions, nothing, found]
    · simp [takeContiguousFromRegions, stopped]
    · right
      right
      obtain ⟨servedOwned, contained⟩ := Owned.extend regionOwned.fits holds
        takes (contiguous_nodup region index _ pageCount)
        (fun paddr member => contiguous_inBlock above member)
      have free := takes.freePages
      rw [card_blockPages] at free
      have nonempty : pageCount ≠ 0 := by omega
      refine ⟨served :: rest, _, ?_, ?_, ?_, above, below,
        Served.head restOwned regionApart servedOwned contained takes.same free⟩
      · simp [takeContiguousFromRegions, taking, nonempty]
      · simp [nonempty]
      · simp

theorem returnToRegion_spec (owned : ∀ region ∈ regions, Owned taken region)
    (apart : regions.Pairwise RangesApart) (member : paddr ∈ taken)
    (contained : ∃ region ∈ regions, region.contains paddr = true) :
    ∃ result, returnToRegion paddr regions = some result ∧
      (∀ region ∈ result, Owned (taken.erase paddr) region) ∧ Forall₂ SameLayout regions result ∧
      freePages result = freePages regions + 1 := by
  induction regions with
  | nil =>
    obtain ⟨_, inNil, _⟩ := contained
    cases inNil
  | cons region rest ih =>
    obtain ⟨regionOwned, restOwned⟩ := forall_mem_cons.mp owned
    obtain ⟨regionApart, restApart⟩ := pairwise_cons.mp apart
    by_cases here : region.contains paddr = true
    · obtain ⟨used, holds⟩ := regionOwned.holds
      have inRegion : paddr ∈ taken.filter region.contains := mem_filter.mpr ⟨member, here⟩
      obtain ⟨result, used', success, resultHolds, same, free⟩ := holds.returnPage inRegion
      refine ⟨result :: rest, ?_, ?_, .cons same (forall₂_sameLayout_refl rest), ?_⟩
      · simp [returnToRegion, here, success]
      · intro other otherMember
        rcases mem_cons.mp otherMember with rfl | later
        · refine ⟨same.fits regionOwned.fits, used', ?_⟩
          rw [same.contains, ← erase_filter]
          exact resultHolds
        · apply (restOwned other later).frame_erase
          exact not_contains_of_apart (regionApart other later) here
      · simp only [freePages, map_cons, sum_cons]
        omega
    · rw [Bool.not_eq_true] at here
      have later : ∃ other ∈ rest, other.contains paddr = true := by
        obtain ⟨holder, holderMember, inside⟩ := contained
        rcases mem_cons.mp holderMember with rfl | inRest
        · rw [here] at inside
          cases inside
        · exact ⟨holder, inRest, inside⟩
      obtain ⟨result, success, resultOwned, same, free⟩ := ih restOwned restApart later
      refine ⟨region :: result, ?_, ?_, .cons (SameLayout.refl region) same, ?_⟩
      · simp [returnToRegion, here, success]
      · exact forall_mem_cons.mpr ⟨regionOwned.frame_erase here, resultOwned⟩
      · simp only [freePages, map_cons, sum_cons] at free ⊢
        omega

end GlobalData

end MixUpOS.Kernel.Memory
