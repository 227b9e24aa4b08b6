import MixUpOS.Kernel.Memory.PhysicalZoneRefinement
import Mathlib.Order.Interval.Finset.Nat

/-!
# The used pages of a physical zone

Seen from outside, a zone of `2 ^ top` pages is a set of used pages.  A block
allocation moves an aligned run of pages into that set and a deallocation
moves one out, and neither ever fails a `VERIFY`.
-/

namespace MixUpOS.Kernel.Memory

open AK Library Library.Buddy Finset

/-- The pages, counted from the zone's base, of a block. -/
def blockPages (order number : Nat) : Finset Nat :=
  Finset.Ico (number * 2 ^ order) ((number + 1) * 2 ^ order)

@[simp] theorem mem_blockPages : page ∈ blockPages order number ↔ page / 2 ^ order = number := by
  have pos := Nat.two_pow_pos order
  rw [blockPages, mem_Ico, ← Nat.le_div_iff_mul_le pos, ← Nat.div_lt_iff_lt_mul pos]
  omega

theorem card_blockPages (order number : Nat) : (blockPages order number).card = 2 ^ order := by
  rw [blockPages, Nat.card_Ico, Nat.succ_mul, Nat.add_sub_cancel_left]

namespace PhysicalZone

/-- The address of the block with the given number. -/
def blockAddress (zone : PhysicalZone) (order number : Nat) : Nat :=
  zone.baseAddress + number * 2 ^ order * pageSize

/-- The zone's pages outside `used` are the units of a buddy system that the
zone represents. -/
structure Accounts (top : Nat) (zone : PhysicalZone) (used : Finset Nat) : Prop where
  buddies : ∃ free, Invariant top free ∧ Represents top zone free ∧
    ∀ page, FreeUnit free page ↔ page < 2 ^ top ∧ page ∉ used
  inside : ∀ page ∈ used, page < 2 ^ top
  usedChunks : zone.usedChunks = 2 * used.card

/-- The holder of a page in use wrote over the entry of the page. -/
def scribble (zone : PhysicalZone) (paddr : Nat) (entry : FreelistEntry) : PhysicalZone :=
  { zone with
    entries := Function.update zone.entries ((paddr - zone.baseAddress) / pageSize : Nat) entry }

/-- An aligned run of pages that is entirely free. -/
def FreeRun (top order : Nat) (used : Finset Nat) : Prop :=
  ∃ number, (number + 1) * 2 ^ order ≤ 2 ^ top ∧ Disjoint (blockPages order number) used

section

variable {zone : PhysicalZone}

section

variable (accounts : Accounts top zone used)

include accounts

theorem Accounts.pageCount : zone.pageCount = 2 ^ top := by
  obtain ⟨_, _, models, _⟩ := accounts.buddies
  exact models.pageCount

theorem Accounts.card_le : used.card ≤ 2 ^ top := by
  have subset : used ⊆ range (2 ^ top) :=
    fun page member => mem_range.mpr (accounts.inside page member)
  simpa using card_le_card subset

theorem Accounts.available : zone.available = 2 ^ top - used.card := by
  rw [PhysicalZone.available, accounts.pageCount, accounts.usedChunks]
  omega

end

theorem blockPages_zero (page : Nat) : blockPages 0 page = {page} := by
  ext candidate
  simp

theorem Accounts.freeRun_zero (accounts : Accounts top zone used)
    (nonempty : zone.available ≠ 0) : FreeRun top 0 used := by
  rw [accounts.available] at nonempty
  have fewer : used.card < (range (2 ^ top)).card := by
    rw [card_range]
    omega
  obtain ⟨page, inside, unused⟩ := exists_mem_notMem_of_card_lt_card fewer
  refine ⟨page, ?_, ?_⟩
  · rw [Nat.pow_zero, Nat.mul_one]
    exact mem_range.mp inside
  · rwa [blockPages_zero, disjoint_singleton_left]

theorem page_lt (orderBound : order ≤ top) (numberBound : number < 2 ^ (top - order))
    (member : page ∈ blockPages order number) : page < 2 ^ top := by
  have fits := block_fits orderBound numberBound
  rw [blockPages, mem_Ico] at member
  have double : number * (2 * 2 ^ order) + 2 * 2 ^ order = 2 * ((number + 1) * 2 ^ order) := by ring
  omega

theorem create_accounts (topBound : top ≤ maxOrder)
    (entries : Int → FreelistEntry) (baseAddress : Nat) :
    ∃ zone, create entries baseAddress (2 ^ top) = some zone ∧
      Accounts top zone ∅ ∧ zone.baseAddress = baseAddress := by
  obtain ⟨zone, created, models, base, unused⟩ := create_represents topBound entries baseAddress
  refine ⟨zone, created, ⟨⟨_, wholeZone_invariant top, models, ?_⟩,
    by simp, by simp [unused]⟩, base⟩
  intro page
  simp [freeUnit_wholeZone]

/-- A page in use may hold anything where a free page holds its links. -/
theorem Accounts.scribble (accounts : Accounts top zone used) (member : page ∈ used)
    (entry : FreelistEntry) :
    Accounts top { zone with entries := Function.update zone.entries page entry } used := by
  obtain ⟨free, invariant, models, freeUnit⟩ := accounts.buddies
  refine ⟨⟨free, invariant, ⟨models.pageCount, ?_, models.tracks⟩,
    freeUnit⟩, accounts.inside, accounts.usedChunks⟩
  intro order bound
  refine (models.freelist order bound).congr ?_
  intro node inList
  obtain ⟨number, numberFree, rfl⟩ := List.mem_map.mp inList
  have differ : entryOf (chunkOf order number) ≠ (page : Int) := by
    rw [entryOf_chunkOf]
    intro same
    have samePage : number * 2 ^ order = page := by omega
    have isFree : FreeUnit free page := ⟨order, by rwa [← samePage, first_unit_div]⟩
    exact ((freeUnit page).mp isFree).2 member
  exact Function.update_of_ne differ _ _

theorem freeRun_iff (freeUnit : ∀ page, FreeUnit free page ↔ page < 2 ^ top ∧ page ∉ used) :
    FreeRun top order used ↔ ∃ number, (number + 1) * 2 ^ order ≤ 2 ^ top ∧
        ∀ page, page / 2 ^ order = number → FreeUnit free page := by
  refine exists_congr fun number => and_congr_right fun fits => ?_
  rw [disjoint_left]
  refine forall_congr' fun page => ?_
  rw [mem_blockPages, freeUnit]
  refine forall_congr' fun inBlock => ?_
  have below : page < 2 ^ top := by
    have member := mem_blockPages.mpr inBlock
    rw [blockPages, mem_Ico] at member
    omega
  simp [below]

theorem allocateBlock_eq_some (inRange : order ≤ maxOrder) (same : SameAccounting zone result)
    (success : zone.allocateBlockImpl order = some (result, some (chunkOf order number))) :
    zone.allocateBlock order = some ({ result with usedChunks := zone.usedChunks + 2 * 2 ^ order },
        some (zone.blockAddress order number)) := by
  have chunkEq : chunkOf order number = 2 * ((number * 2 ^ order : Nat) : Int) := by
    unfold chunkOf
    push_cast
    ring
  have even : (chunkOf order number % 2 == 0) = true := by
    rw [beq_iff_eq]
    omega
  have address : (((zone.baseAddress : Nat) : Int) + chunkOf order number * zoneChunkSize).toNat =
        zone.blockAddress order number := by
    have chunk : (zoneChunkSize : Int) = 2048 := rfl
    have page : pageSize = 4096 := rfl
    rw [chunk, blockAddress, page]
    omega
  simp [allocateBlock, success, verify_eq_some even, same.baseAddress,
    same.usedChunks, address, blockSize_eq inRange]

theorem Accounts.allocateBlock (topBound : top ≤ maxOrder)
    (accounts : Accounts top zone used) (order : Nat) :
    (zone.allocateBlock order = some (zone, none) ∧ ¬FreeRun top order used) ∨
    ∃ result number, zone.allocateBlock order =
        some (result, some (zone.blockAddress order number)) ∧
      order ≤ top ∧ number < 2 ^ (top - order) ∧ Disjoint (blockPages order number) used ∧
      Accounts top result (blockPages order number ∪ used) ∧
      result.baseAddress = zone.baseAddress := by
  obtain ⟨free, invariant, models, freeUnit⟩ := accounts.buddies
  have refines := allocateBlockImpl_refines topBound invariant models order
  cases outcome : Buddy.allocate maxOrder free order with
  | none =>
    rw [outcome] at refines
    refine .inl ⟨by simp [PhysicalZone.allocateBlock, refines], ?_⟩
    rw [freeRun_iff freeUnit]
    exact (allocate_eq_none_iff_no_free_block invariant topBound).mp outcome
  | some allocation =>
    obtain ⟨remaining, number⟩ := allocation
    rw [outcome] at refines
    obtain ⟨result, success, resultModels, same⟩ := refines
    have allocated := allocate_spec invariant outcome
    have inRange : order ≤ maxOrder := Nat.le_trans allocated.orderBound topBound
    have disjoint : Disjoint (blockPages order number) used := by
      rw [disjoint_left]
      intro page inBlock
      have wasFree := allocated.wasFree page (mem_blockPages.mp inBlock)
      exact ((freeUnit page).mp wasFree).2
    refine .inr ⟨_, number, allocateBlock_eq_some inRange same success,
      allocated.orderBound, allocated.numberBound, disjoint,
      ⟨⟨remaining, allocated.invariant, ⟨resultModels.pageCount,
        resultModels.freelist, resultModels.tracks⟩, ?_⟩, ?_, ?_⟩,
      same.baseAddress⟩
    · intro page
      rw [allocated.freeUnit_iff, freeUnit, mem_union, mem_blockPages]
      tauto
    · intro page member
      rcases mem_union.mp member with inBlock | inUsed
      · exact page_lt allocated.orderBound allocated.numberBound inBlock
      · exact accounts.inside page inUsed
    · have counted := accounts.usedChunks
      change zone.usedChunks + 2 * 2 ^ order = _
      rw [card_union_of_disjoint disjoint, card_blockPages]
      omega

theorem chunkIndex_blockAddress (topBound : top ≤ maxOrder)
    (orderBound : order ≤ top) (numberBound : number < 2 ^ (top - order)) :
    toChunkIndex (((zone.blockAddress order number : Nat) -
        zone.baseAddress : Int) % 2 ^ 64 / zoneChunkSize) = chunkOf order number := by
  have bound := chunkOf_lt topBound orderBound numberBound
  have chunkEq : chunkOf order number = 2 * ((number * 2 ^ order : Nat) : Int) := by
    unfold chunkOf
    push_cast
    ring
  have chunk : (zoneChunkSize : Int) = 2048 := rfl
  have page : pageSize = 4096 := rfl
  have index : ((zone.blockAddress order number : Nat) -
      zone.baseAddress : Int) % 2 ^ 64 / zoneChunkSize = chunkOf order number := by
    rw [blockAddress, page, chunk]
    omega
  rw [index, toChunkIndex_chunkOf topBound orderBound numberBound]

theorem Accounts.deallocateBlock (topBound : top ≤ maxOrder) (accounts : Accounts top zone used)
    (orderBound : order ≤ top) (numberBound : number < 2 ^ (top - order))
    (inUse : blockPages order number ⊆ used) :
    ∃ result, zone.deallocateBlock (zone.blockAddress order number) order = some result ∧
      Accounts top result (used \ blockPages order number) ∧
      result.baseAddress = zone.baseAddress := by
  obtain ⟨free, invariant, models, freeUnit⟩ := accounts.buddies
  have inRange : order ≤ maxOrder := Nat.le_trans orderBound topBound
  have releasable : Releasable top free order number := by
    refine ⟨invariant, orderBound, numberBound, ?_⟩
    intro page inBlock isFree
    exact ((freeUnit page).mp isFree).2 (inUse (mem_blockPages.mpr inBlock))
  obtain ⟨result, remaining, released, success, resultModels, same⟩ :=
    deallocateBlockImpl_refines topBound releasable models
  obtain ⟨_, sameRemaining, spec⟩ := release_spec topBound releasable
  cases released.symm.trans sameRemaining
  refine ⟨{ result with
      usedChunks := result.usedChunks - blockSize order }, ?_,
    ⟨⟨remaining, spec.invariant, ⟨resultModels.pageCount,
      resultModels.freelist, resultModels.tracks⟩, ?_⟩, ?_, ?_⟩,
    same.baseAddress⟩
  · simp only [PhysicalZone.deallocateBlock, success,
      chunkIndex_blockAddress topBound orderBound numberBound]
    rfl
  · intro page
    rw [spec.freeUnit_iff, freeUnit, mem_sdiff, mem_blockPages]
    have below : page / 2 ^ order = number → page < 2 ^ top :=
      fun inBlock => page_lt orderBound numberBound (mem_blockPages.mpr inBlock)
    tauto
  · intro page member
    exact accounts.inside page (mem_sdiff.mp member).1
  · have counted := card_sdiff_add_card_eq_card inUse
    rw [card_blockPages] at counted
    have before := accounts.usedChunks
    change result.usedChunks - blockSize order = _
    rw [same.usedChunks, blockSize_eq inRange]
    omega

end

end PhysicalZone

end MixUpOS.Kernel.Memory
