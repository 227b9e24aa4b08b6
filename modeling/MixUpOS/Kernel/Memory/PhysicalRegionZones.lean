import MixUpOS.Kernel.Memory.PhysicalRegion
import MixUpOS.Kernel.Memory.PhysicalZonePages
import Mathlib.Data.Nat.Log

/-!
# The zones of a physical region

A region is sound for a family of used pages, one set for each zone.  Taking
and returning pages moves pages in and out of one of the sets, and keeps each
zone on the list that its free pages say.
-/

namespace MixUpOS.Kernel.Memory

open AK PhysicalZone Function Nat

namespace PhysicalRegion

/-- The order of a whole zone. -/
def zoneOrder (region : PhysicalRegion) (index : Nat) : Nat :=
  if index < region.largeZones then 12 else 8

/-- The first page of a zone, counted from the region's lower end. -/
def zoneStart (region : PhysicalRegion) (index : Nat) : Nat :=
  if index < region.largeZones then index * 4096
  else region.largeZones * 4096 + (index - region.largeZones) * 256

def pageAddress (region : PhysicalRegion) (index page : Nat) : Nat :=
  region.lower + (region.zoneStart index + page) * pageSize

/-- The zone of each number accounts for its used pages, and the two lists
separate the zones with free pages from those without. -/
structure Sound (region : PhysicalRegion) (used : Nat → Finset Nat) : Prop where
  largeZones : region.largeZones ≤ region.zones.length
  zone : ∀ {index zone}, region.zones[index]? = some zone →
    zone.baseAddress = region.pageAddress index 0 ∧
    zone.Accounts (region.zoneOrder index) (used index)
  usableNodup : region.usableZones.Nodup
  fullNodup : region.fullZones.Nodup
  mem_usable : ∀ index, index ∈ region.usableZones ↔
    ∃ zone, region.zones[index]? = some zone ∧ zone.available ≠ 0
  mem_full : ∀ index, index ∈ region.fullZones ↔
    ∃ zone, region.zones[index]? = some zone ∧ zone.available = 0

section

variable {region : PhysicalRegion} {index : Nat}

theorem zoneOrder_le (region : PhysicalRegion) (index : Nat) :
    region.zoneOrder index ≤ maxOrder := by
  have limit : maxOrder = 12 := rfl
  unfold zoneOrder
  split <;> omega

theorem zoneStart_succ (region : PhysicalRegion) (index : Nat) :
    region.zoneStart (index + 1) = region.zoneStart index + 2 ^ region.zoneOrder index := by
  unfold zoneStart zoneOrder
  split <;> split <;> omega

theorem zoneStart_mono (region : PhysicalRegion) (order : index ≤ later) :
    region.zoneStart index ≤ region.zoneStart later := by
  induction order with
  | refl => exact le_refl _
  | step _ ih =>
    rw [zoneStart_succ]
    exact le_add_right_of_le ih

theorem pageAddress_injective (inside : page < 2 ^ region.zoneOrder index)
    (otherInside : otherPage < 2 ^ region.zoneOrder other)
    (same : region.pageAddress index page = region.pageAddress other otherPage) :
    index = other ∧ page = otherPage := by
  have size : pageSize = 4096 := rfl
  have sameStart : region.zoneStart index + page = region.zoneStart other + otherPage := by
    unfold pageAddress at same
    rw [size] at same
    omega
  have next := zoneStart_succ region index
  have otherNext := zoneStart_succ region other
  rcases lt_trichotomy index other with before | rfl | after
  · have mono : region.zoneStart (index + 1) ≤ region.zoneStart other :=
      zoneStart_mono region before
    omega
  · exact ⟨rfl, by omega⟩
  · have mono : region.zoneStart (other + 1) ≤ region.zoneStart index := zoneStart_mono region after
    omega

theorem zoneIndex_eq (above : region.pageAddress index 0 ≤ paddr)
    (below : paddr < region.pageAddress index (2 ^ region.zoneOrder index)) :
    region.zoneIndex paddr = index := by
  have size : pageSize = 4096 := rfl
  have largeSize : largeZoneSize = 4096 * 4096 := rfl
  have smallSize : smallZoneSize = 256 * 4096 := rfl
  simp only [pageAddress, zoneStart, zoneOrder, size] at above below
  rw [zoneIndex, largeSize, smallSize]
  split_ifs at * <;> omega

theorem zoneIndex_pageAddress (inside : page < 2 ^ region.zoneOrder index) :
    region.zoneIndex (region.pageAddress index page) = index := by
  have size : pageSize = 4096 := rfl
  refine zoneIndex_eq ?_ ?_ <;> unfold pageAddress <;> rw [size] <;> omega

end

section

variable {index : Nat} {zone result : PhysicalZone} {pages : Finset Nat}

section

-- What a list of zones holds when it is kept, loses or gets one zone.
variable {list : List Nat}

theorem mem_kept (here : index ∈ list ↔ holds) (other : Nat) :
    other ∈ list ↔ if other = index then holds else other ∈ list := by
  split_ifs with same
  · rw [same, here]
  · rfl

theorem mem_erased (nodup : list.Nodup) (absent : ¬holds) (other : Nat) :
    other ∈ list.erase index ↔ if other = index then holds else other ∈ list := by
  rw [nodup.mem_erase_iff]
  by_cases same : other = index <;> simp [same, absent]

theorem nodup_moved (nodup : list.Nodup) (missing : index ∉ list) :
    (list.erase index ++ [index]).Nodup := by
  rw [List.erase_of_not_mem missing]
  exact List.nodup_append_comm.mp (List.nodup_cons.mpr ⟨missing, nodup⟩)

theorem mem_moved (present : holds) (other : Nat) :
    other ∈ list.erase index ++ [index] ↔ if other = index then holds else other ∈ list := by
  by_cases same : other = index <;> simp [same, present]

end

section

variable (sound : Sound region used)

include sound

theorem Sound.usable_or_full (present : region.zones[index]? = some zone) :
    index ∈ region.usableZones ∨ index ∈ region.fullZones := by
  by_cases empty : zone.available = 0
  · exact .inr ((sound.mem_full index).mpr ⟨zone, present, empty⟩)
  · exact .inl ((sound.mem_usable index).mpr ⟨zone, present, empty⟩)

theorem Sound.not_usable_and_full (usable : index ∈ region.usableZones)
    (full : index ∈ region.fullZones) : False := by
  obtain ⟨zone, present, nonempty⟩ := (sound.mem_usable index).mp usable
  obtain ⟨_, samePresent, empty⟩ := (sound.mem_full index).mp full
  cases present.symm.trans samePresent
  exact nonempty empty

section

variable (present : region.zones[index]? = some zone) (base : result.baseAddress = zone.baseAddress)
  (accounts : result.Accounts (region.zoneOrder index) pages)

include present base accounts

theorem Sound.replace (usableNodup : usable.Nodup) (fullNodup : full.Nodup)
    (mem_usable : ∀ other, other ∈ usable ↔
      if other = index then result.available ≠ 0
      else other ∈ region.usableZones) (mem_full : ∀ other, other ∈ full ↔
      if other = index then result.available = 0
      else other ∈ region.fullZones) :
    Sound { region.setZone index result with
        usableZones := usable, fullZones := full }
      (update used index pages) := by
  have within : index < region.zones.length := (List.getElem?_eq_some_iff.mp present).1
  have lookup : ∀ other, (region.zones.set index result)[other]? =
      if other = index then some result else region.zones[other]? := by
    intro other
    split_ifs with same
    · rw [same, List.getElem?_set_self within]
    · rw [List.getElem?_set_ne (Ne.symm same)]
  refine ⟨?_, ?_, usableNodup, fullNodup, ?_, ?_⟩
  · simpa [setZone] using sound.largeZones
  · intro other zone' found
    simp only [setZone, lookup] at found
    by_cases same : other = index
    · subst same
      rw [if_pos rfl] at found
      cases found
      rw [update_self]
      exact ⟨base.trans (sound.zone present).1, accounts⟩
    · rw [if_neg same] at found
      rw [update_of_ne same]
      exact sound.zone found
  · intro other
    simp only [setZone, lookup, mem_usable]
    by_cases same : other = index <;> simp [same, sound.mem_usable]
  · intro other
    simp only [setZone, lookup, mem_full]
    by_cases same : other = index <;> simp [same, sound.mem_full]

theorem Sound.taken (usable : index ∈ region.usableZones) :
    Sound (if result.isEmpty then (region.setZone index result).appendFull index
        else region.setZone index result)
      (update used index pages) := by
  have notFull : index ∉ region.fullZones := fun full => sound.not_usable_and_full usable full
  by_cases empty : result.available = 0
  · rw [if_pos (by simp [isEmpty, empty])]
    exact sound.replace present base accounts (sound.usableNodup.erase _)
      (nodup_moved sound.fullNodup notFull)
      (mem_erased sound.usableNodup (not_not_intro empty)) (mem_moved empty)
  · rw [if_neg (by simp [isEmpty, empty])]
    exact sound.replace present base accounts sound.usableNodup sound.fullNodup
      (mem_kept (iff_of_true usable empty)) (mem_kept (iff_of_false notFull empty))

theorem Sound.returned (nonempty : result.available ≠ 0) :
    Sound (if index ∈ (region.setZone index result).fullZones
        then (region.setZone index result).appendUsable index
        else region.setZone index result)
      (update used index pages) := by
  by_cases full : index ∈ region.fullZones
  · have notUsable : index ∉ region.usableZones :=
      fun usable => sound.not_usable_and_full usable full
    rw [if_pos (by exact full)]
    exact sound.replace present base accounts (nodup_moved sound.usableNodup notUsable)
      (sound.fullNodup.erase _) (mem_moved nonempty) (mem_erased sound.fullNodup nonempty)
  · have usable : index ∈ region.usableZones := (sound.usable_or_full present).resolve_right full
    rw [if_neg (by exact full)]
    exact sound.replace present base accounts sound.usableNodup sound.fullNodup
      (mem_kept (iff_of_true usable nonempty)) (mem_kept (iff_of_false full nonempty))

end

end

end

/-- The pages that are free in the zones of the region. -/
def freePages (region : PhysicalRegion) : Nat := (region.zones.map available).sum

/-- The parts of a region that stay as `initialize_zones` made them. -/
structure SameLayout (region result : PhysicalRegion) : Prop where
  zones : result.zones.length = region.zones.length
  largeZones : result.largeZones = region.largeZones
  lower : result.lower = region.lower
  upper : result.upper = region.upper
  pages : result.pages = region.pages

theorem SameLayout.pageAddress (same : SameLayout region result) :
    result.pageAddress = region.pageAddress := by
  funext index page
  simp only [PhysicalRegion.pageAddress, zoneStart, same.lower, same.largeZones]

/-- The pages of one zone were taken. -/
structure Taken (region : PhysicalRegion) (used : Nat → Finset Nat)
    (index : Nat) (pages : Finset Nat) (result : PhysicalRegion) : Prop where
  within : index < region.zones.length
  inside : ∀ page ∈ pages, page < 2 ^ region.zoneOrder index
  unused : Disjoint pages (used index)
  sound : Sound result (Function.update used index (pages ∪ used index))
  same : SameLayout region result
  freePages : result.freePages + pages.card = region.freePages

section

variable {region : PhysicalRegion}
variable {index : Nat} {zone : PhysicalZone}

theorem sameLayout_setZone (region : PhysicalRegion) (index : Nat)
    (zone : PhysicalZone) : SameLayout region (region.setZone index zone) :=
  ⟨by simp [setZone], rfl, rfl, rfl, rfl⟩

theorem sum_available_set {zones : List PhysicalZone}
    (result : PhysicalZone) (present : zones[index]? = some zone) :
    ((zones.set index result).map available).sum + zone.available =
      (zones.map available).sum + result.available := by
  obtain ⟨within, rfl⟩ := List.getElem?_eq_some_iff.mp present
  rw [List.set_eq_take_append_cons_drop, if_pos within]
  conv_rhs => rw [← List.take_append_drop index zones, List.drop_eq_getElem_cons within]
  simp only [List.map_append, List.map_cons, List.sum_append, List.sum_cons]
  omega

section

variable (sound : Sound region used)

include sound

theorem Sound.freePages_of_no_usable (none : region.usableZones = []) : region.freePages = 0 := by
  rw [freePages, List.sum_eq_zero_iff]
  intro amount member
  obtain ⟨zone, inZones, rfl⟩ := List.mem_map.mp member
  obtain ⟨index, present⟩ := List.mem_iff_getElem?.mp inZones
  by_contra nonempty
  have usable := (sound.mem_usable index).mpr ⟨zone, present, nonempty⟩
  rw [none] at usable
  cases usable

theorem Sound.taken_block (usable : index ∈ region.usableZones)
    (present : region.zones[index]? = some zone) (base : result.baseAddress = zone.baseAddress)
    {pages : Finset Nat} (disjoint : Disjoint pages (used index))
    (accounts : result.Accounts (region.zoneOrder index) (pages ∪ used index)) :
    Taken region used index pages
      (if result.isEmpty then (region.setZone index result).appendFull index
        else region.setZone index result) := by
  have before := (sound.zone present).2.available
  have after := accounts.available
  have bound := accounts.card_le
  rw [Finset.card_union_of_disjoint disjoint] at after bound
  have total := sum_available_set result present
  refine ⟨(List.getElem?_eq_some_iff.mp present).1, ?_, disjoint,
    sound.taken present base accounts usable, ?_, ?_⟩
  · intro page member
    exact accounts.inside page (Finset.mem_union_left _ member)
  · split
    · exact ⟨by simp [setZone, appendFull], rfl, rfl, rfl, rfl⟩
    · exact sameLayout_setZone region index result
  · have balance : ((region.zones.set index result).map available).sum + pages.card =
        region.freePages := by
      rw [freePages]
      omega
    split <;> exact balance

theorem Sound.blockAddress (present : region.zones[index]? = some zone) (order number : Nat) :
    zone.blockAddress order number = region.pageAddress index (number * 2 ^ order) := by
  rw [PhysicalZone.blockAddress, (sound.zone present).1, pageAddress, pageAddress]
  ring

theorem Sound.takeFreePage : (region.usableZones = [] ∧ region.takeFreePage = some (region, none)) ∨
    ∃ result index page, region.takeFreePage = some (result, some (region.pageAddress index page)) ∧
      Taken region used index {page} result := by
  cases list : region.usableZones with
  | nil => exact .inl ⟨rfl, by simp [PhysicalRegion.takeFreePage, list]⟩
  | cons index rest =>
    have usable : index ∈ region.usableZones := by simp [list]
    obtain ⟨zone, present, nonempty⟩ := (sound.mem_usable index).mp usable
    have accounts := (sound.zone present).2
    rcases accounts.allocateBlock (zoneOrder_le region index) 0 with
      ⟨_, noRun⟩ | ⟨result, page, allocated, _, _, disjoint, resultAccounts, resultBase⟩
    · exact absurd (accounts.freeRun_zero nonempty) noRun
    refine .inr ⟨_, index, page, ?_, sound.taken_block usable present
      resultBase (blockPages_zero page ▸ disjoint)
      (blockPages_zero page ▸ resultAccounts)⟩
    rw [PhysicalRegion.takeFreePage, list]
    simp [present, allocated, sound.blockAddress present]

theorem Sound.allocateFromZones (order : Nat)
    (indices : List Nat) (usable : ∀ index ∈ indices, index ∈ region.usableZones) :
    allocateFromZones order indices region = some (region, none) ∨
    ∃ result index number, allocateFromZones order indices region = some (result,
          some (region.pageAddress index (number * 2 ^ order))) ∧
      Taken region used index (blockPages order number) result := by
  induction indices with
  | nil => exact .inl rfl
  | cons index rest ih =>
    have headUsable := usable index List.mem_cons_self
    obtain ⟨zone, present, _⟩ := (sound.mem_usable index).mp headUsable
    have accounts := (sound.zone present).2
    rcases accounts.allocateBlock (zoneOrder_le region index) order with
      ⟨failed, _⟩ | ⟨result, number, allocated, _, _, disjoint, resultAccounts, resultBase⟩
    · have kept : region.setZone index zone = region := by
        obtain ⟨within, isZone⟩ := List.getElem?_eq_some_iff.mp present
        rw [setZone, ← isZone, List.set_getElem_self]
      have skip : PhysicalRegion.allocateFromZones order (index :: rest)
          region = PhysicalRegion.allocateFromZones order rest region := by
        simp [PhysicalRegion.allocateFromZones, present, failed, kept]
      rw [skip]
      exact ih (List.forall_mem_cons.mp usable).2
    · refine .inr ⟨_, index, number, ?_, sound.taken_block headUsable present resultBase disjoint
          resultAccounts⟩
      simp [PhysicalRegion.allocateFromZones, present, allocated, sound.blockAddress present]

end

/-- The order of the block that serves a contiguous request. -/
def contiguousOrder (count : Nat) : Nat := countTrailingZeroes 32 (nextPowerOfTwo (count % 2 ^ 32))

theorem contiguousOrder_spec {count : Nat} (pos : 0 < count) (limit : count ≤ 2 ^ 31) :
    count ≤ 2 ^ contiguousOrder count ∧ 2 ^ contiguousOrder count < 2 * count := by
  have above := le_pow_clog (by omega : 1 < 2) count
  have below : 2 ^ clog 2 count < 2 * count := by
    rcases lt_or_ge 1 count with several | one
    · have pred := pow_pred_clog_lt_self (by omega : 1 < 2) several
      have split : 2 ^ clog 2 count = 2 ^ (clog 2 count).pred * 2 := by
        rw [← Nat.pow_succ, Nat.succ_pred_eq_of_pos (Nat.clog_pos (by omega) several)]
      omega
    · have isOne : count = 1 := by omega
      subst isOne
      decide
  have exponent : clog 2 count < 32 := lt_succ_of_le (clog_le_of_le_pow limit)
  have orderEq : contiguousOrder count = clog 2 count := by
    rw [contiguousOrder, mod_eq_of_lt (by omega), nextPowerOfTwo_eq above below exponent,
      countTrailingZeroes_two_pow exponent]
  rw [orderEq]
  exact ⟨above, below⟩

theorem count_le_of_capacity {heap : KernelHeap} {count : Nat}
    (addressable : count * pageSize < 2 ^ 64) (capacity : heap.tryEnsureCapacity count = true) :
    count ≤ 2 ^ 31 := by
  have size : pageSize = 4096 := rfl
  have limit : kernelHeapLimit = 83886080 := rfl
  rw [KernelHeap.tryEnsureCapacity, Bool.or_eq_true, beq_iff_eq] at capacity
  rcases capacity with rfl | allocated
  · omega
  · have bound := heap.bounded _ allocated
    rw [size] at addressable
    omega

theorem Taken.order_le {result : PhysicalRegion}
    (takes : Taken region used index (blockPages order number) result) : order ≤ maxOrder := by
  have last : (number + 1) * 2 ^ order - 1 ∈ blockPages order number := by
    have pos := Nat.two_pow_pos order
    rw [blockPages, Finset.mem_Ico, Nat.succ_mul]
    omega
  have inside := takes.inside _ last
  have wide : 2 ^ order ≤ (number + 1) * 2 ^ order := Nat.le_mul_of_pos_left _ (Nat.succ_pos number)
  have power : 2 ^ order ≤ 2 ^ region.zoneOrder index := by omega
  exact Nat.le_trans ((Nat.pow_le_pow_iff_right (by omega)).mp power) (zoneOrder_le region index)

theorem contiguous_nodup (region : PhysicalRegion) (index first count : Nat) :
    ((List.range count).map fun page =>
      region.pageAddress index (first + page)).Nodup := by
  apply List.nodup_range.map
  intro page other equality
  have size : pageSize = 4096 := rfl
  simp only [pageAddress, size] at equality
  omega

theorem contiguous_inBlock {order number count paddr : Nat} (fits : count ≤ 2 ^ order)
    (member : paddr ∈ (List.range count).map fun page =>
      region.pageAddress index (number * 2 ^ order + page)) :
    ∃ page ∈ blockPages order number, paddr = region.pageAddress index page := by
  obtain ⟨page, below, rfl⟩ := List.mem_map.mp member
  rw [List.mem_range] at below
  refine ⟨_, ?_, rfl⟩
  rw [blockPages, Finset.mem_Ico, succ_mul]
  omega

section

variable (sound : Sound region used)

include sound

theorem Sound.takeContiguousFreePages (heap : KernelHeap) {count : Nat}
    (addressable : count * pageSize < 2 ^ 64) :
    region.takeContiguousFreePages heap count = some (region, []) ∨
    (region.takeContiguousFreePages heap count = none ∧ heap.tryEnsureCapacity count = false) ∨
    ∃ result index number, region.takeContiguousFreePages heap count =
        some (result, (List.range count).map fun page =>
          region.pageAddress index (number * 2 ^ contiguousOrder count + page)) ∧
      Taken region used index (blockPages (contiguousOrder count) number) result ∧
      0 < count ∧ count ≤ 2 ^ contiguousOrder count ∧
      2 ^ contiguousOrder count < 2 * count := by
  simp only [PhysicalRegion.takeContiguousFreePages]
  rw [← contiguousOrder]
  rcases sound.allocateFromZones (contiguousOrder count) region.usableZones
    (fun _ member => member) with failed | ⟨result, index, number, allocated, taken⟩
  · left
    rw [failed]
    rfl
  · right
    by_cases capacity : heap.tryEnsureCapacity count = true
    · right
      have pos : 0 < count := by
        apply pos_of_ne_zero
        rintro rfl
        exact absurd taken.order_le (by decide)
      refine ⟨result, index, number, ?_, taken, pos, contiguousOrder_spec pos
          (count_le_of_capacity addressable capacity)⟩
      have addresses : ∀ page, region.pageAddress index (number * 2 ^ contiguousOrder count) +
              page * pageSize =
            region.pageAddress index (number * 2 ^ contiguousOrder count + page) := by
        intro page
        rw [pageAddress, pageAddress]
        ring
      simp [allocated, capacity, addresses]
    · simp [allocated, capacity, verify]

section

variable (present : region.zones[index]? = some zone)

include present

theorem Sound.contains_pageAddress (inside : page < 2 ^ region.zoneOrder index) :
    zone.contains (region.pageAddress index page) = true := by
  obtain ⟨base, accounts⟩ := sound.zone present
  have size : pageSize = 4096 := rfl
  rw [PhysicalZone.contains, base, accounts.pageCount]
  simp only [pageAddress, size, Bool.and_eq_true, decide_eq_true_iff]
  omega

theorem Sound.scribble (inUse : page ∈ used index) (entry : FreelistEntry) :
    Sound (region.setZone index { zone with entries := update zone.entries page entry }) used := by
  have accounts := (sound.zone present).2.scribble inUse entry
  have replaced := sound.replace present (by rfl) accounts sound.usableNodup sound.fullNodup
    (mem_kept (by simp [sound.mem_usable, present, available]))
    (mem_kept (by simp [sound.mem_full, present, available]))
  rwa [update_eq_self] at replaced

theorem Sound.zoneIndex_of_contains (contains : zone.contains paddr = true) :
    region.zoneIndex paddr = index := by
  obtain ⟨base, accounts⟩ := sound.zone present
  rw [PhysicalZone.contains, Bool.and_eq_true, decide_eq_true_iff,
    decide_eq_true_iff, base, accounts.pageCount] at contains
  refine zoneIndex_eq contains.1 (lt_of_lt_of_eq contains.2 ?_)
  rw [pageAddress, pageAddress]
  ring

end

theorem Sound.returnPage (within : index < region.zones.length) (member : page ∈ used index) :
    ∃ result, region.returnPage (region.pageAddress index page) = some result ∧
      Sound result (update used index (used index \ {page})) ∧ SameLayout region result ∧
      result.freePages = region.freePages + 1 := by
  obtain ⟨zone, present⟩ : ∃ zone, region.zones[index]? = some zone :=
    ⟨_, List.getElem?_eq_getElem within⟩
  have accounts := (sound.zone present).2
  have inside := accounts.inside page member
  obtain ⟨result, freed, resultAccounts, resultBase⟩ :=
    accounts.deallocateBlock (zoneOrder_le region index) (zero_le _)
      inside (by simpa [blockPages_zero] using member)
  rw [blockPages_zero] at resultAccounts
  rw [sound.blockAddress present, pow_zero, mul_one] at freed
  have counted := Finset.card_sdiff_add_card_eq_card (Finset.singleton_subset_iff.mpr member)
  have before := accounts.available
  have after := resultAccounts.available
  have bound := accounts.card_le
  rw [Finset.card_singleton] at counted
  refine ⟨_, ?_, sound.returned present resultBase resultAccounts (by omega), ?_, ?_⟩
  · simp only [PhysicalRegion.returnPage, zoneIndex_pageAddress inside]
    simp [present, sound.contains_pageAddress present inside, freed]
  · split
    · exact ⟨by simp [setZone, appendUsable], rfl, rfl, rfl, rfl⟩
    · exact sameLayout_setZone region index result
  · have total := sum_available_set result present
    have balance : ((region.zones.set index result).map available).sum = region.freePages + 1 := by
      rw [freePages]
      omega
    split <;> exact balance

end

end

/-- Fresh zones of one size, from the given address upwards. -/
def FreshZones (top baseAddress : Nat) (made : List PhysicalZone) : Prop :=
  ∀ {index zone}, made[index]? = some zone →
    zone.baseAddress = baseAddress + index * 2 ^ top * pageSize ∧
    zone.Accounts top ∅

theorem FreshZones.cons {baseAddress : Nat} (base : zone.baseAddress = baseAddress)
    (accounts : zone.Accounts top ∅)
    (fresh : FreshZones top (baseAddress + 2 ^ top * pageSize) made) :
    FreshZones top baseAddress (zone :: made) := by
  intro index found present
  cases index with
  | zero =>
    cases present
    exact ⟨by simpa using base, accounts⟩
  | succ index =>
    obtain ⟨laterBase, laterAccounts⟩ := fresh (by simpa using present)
    refine ⟨?_, laterAccounts⟩
    rw [laterBase]
    ring

theorem makeZones_spec (entries : Nat → Int → FreelistEntry) {top : Nat} (topBound : top ≤ maxOrder)
    (size : zoneSize / pageSize = 2 ^ top) (region : PhysicalRegion)
    (baseAddress remainingPages : Nat) :
    ∃ made, made.length = remainingPages / 2 ^ top ∧ FreshZones top baseAddress made ∧
      makeZones entries zoneSize region baseAddress remainingPages = some ({ region with
            zones := region.zones ++ made
            usableZones := region.usableZones ++
              (List.range made.length).map (region.zones.length + ·) },
          baseAddress + made.length * 2 ^ top * pageSize,
          remainingPages - made.length * 2 ^ top,
          made.length) := by
  have pos := Nat.two_pow_pos top
  induction remainingPages using Nat.strong_induction_on generalizing region baseAddress with
  | _ remainingPages ih =>
    by_cases enough : 2 ^ top ≤ remainingPages
    · obtain ⟨zone, created, accounts, base⟩ :=
        create_accounts topBound (entries baseAddress) baseAddress
      obtain ⟨made, count, fresh, loop⟩ := ih (remainingPages - 2 ^ top) (by omega) { region with
            zones := region.zones ++ [zone]
            usableZones := region.usableZones ++ [region.zones.length] }
          (baseAddress + 2 ^ top * pageSize)
      refine ⟨zone :: made, ?_, fresh.cons base accounts, ?_⟩
      · rw [List.length_cons, count, div_eq_sub_div pos enough]
      rw [makeZones]
      simp only [size, pos, enough, and_self, if_true, created]
      simp only [some_bind, loop]
      have numbers : (List.range (made.length + 1)).map (region.zones.length + ·) =
          region.zones.length :: (List.range made.length).map (region.zones.length + 1 + ·) := by
        rw [List.range_succ_eq_map, List.map_cons, List.map_map]
        simp only [add_zero, List.cons.injEq, true_and]
        refine List.map_congr_left fun number _ => ?_
        simp only [comp]
        omega
      have addresses : baseAddress + 2 ^ top * pageSize + made.length * 2 ^ top * pageSize =
          baseAddress + (made.length + 1) * 2 ^ top * pageSize := by
        ring
      have pages : remainingPages - 2 ^ top - made.length * 2 ^ top =
          remainingPages - (made.length + 1) * 2 ^ top := by
        rw [succ_mul]
        omega
      simp [numbers, addresses, pages]
    · refine ⟨[], ?_, ?_, ?_⟩
      · rw [div_eq_of_lt (by omega)]
        rfl
      · intro index zone present
        simp at present
      · rw [makeZones]
        simp [size, enough]

theorem FreshZones.available {baseAddress : Nat} (fresh : FreshZones top baseAddress made) :
    (made.map available).sum = made.length * 2 ^ top := by
  have each : ∀ zone ∈ made, zone.available = 2 ^ top := by
    intro zone member
    obtain ⟨index, present⟩ := List.mem_iff_getElem?.mp member
    simpa using (fresh present).2.available
  rw [List.map_congr_left each, List.map_const', List.sum_replicate_nat]

/-- The region that `initialize_zones` leaves. -/
structure Initialized (region : PhysicalRegion) : Prop where
  sound : Sound region fun _ => ∅
  pages : region.pages = (region.upper - region.lower) / pageSize
  zoneStart : region.zoneStart region.zones.length = region.pages - region.pages % 256
  freePages : region.freePages = region.pages - region.pages % 256

/-- The region over the given large and small zones. -/
def laidOut (lower upper : Nat) (large small : List PhysicalZone) : PhysicalRegion where
  zones := large ++ small
  largeZones := large.length
  usableZones := List.range (large.length + small.length)
  fullZones := []
  lower := lower
  upper := upper
  pages := (upper - lower) / pageSize

theorem initializeZones_eq (entries : Nat → Int → FreelistEntry) (lower upper : Nat) :
    ∃ large small, (create lower upper).initializeZones entries =
        some (laidOut lower upper large small) ∧ large.length = (upper - lower) / pageSize / 4096 ∧
      small.length = ((upper - lower) / pageSize - large.length * 4096) / 256 ∧
      FreshZones 12 lower large ∧ FreshZones 8 (lower + large.length * 4096 * pageSize) small := by
  obtain ⟨large, largeCount, largeFresh, largeLoop⟩ :=
    makeZones_spec entries (by decide : 12 ≤ maxOrder)
      (by decide : largeZoneSize / pageSize = 2 ^ 12) (create lower upper)
      lower ((upper - lower) / pageSize)
  obtain ⟨small, smallCount, smallFresh, smallLoop⟩ :=
    makeZones_spec entries (by decide : 8 ≤ maxOrder) (by decide : smallZoneSize / pageSize = 2 ^ 8)
      (laidOut lower upper large [])
      (lower + large.length * 4096 * pageSize)
      ((upper - lower) / pageSize - large.length * 4096)
  refine ⟨large, small, ?_, largeCount, smallCount, largeFresh, smallFresh⟩
  have largeRegion : { create lower upper with
        zones := (create lower upper).zones ++ large
        usableZones := (create lower upper).usableZones ++ (List.range large.length).map
            ((create lower upper).zones.length + ·)
        largeZones := large.length } = laidOut lower upper large [] := by
    simp [create, laidOut]
  have numbers : List.range large.length ++ (List.range small.length).map (large.length + ·) =
        List.range (large.length + small.length) :=
    List.range_add.symm
  rw [initializeZones]
  simp only [create] at largeLoop largeRegion ⊢
  rw [largeLoop]
  simp only [some_bind]
  simp only [reducePow, largeRegion, smallLoop]
  simp [laidOut, numbers]

theorem laidOut_zone {lower upper : Nat} (largeFresh : FreshZones 12 lower large)
    (smallFresh : FreshZones 8 (lower + large.length * 4096 * pageSize) small)
    (present : (laidOut lower upper large small).zones[index]? = some zone) :
    zone.baseAddress = (laidOut lower upper large small).pageAddress index 0 ∧
      zone.Accounts ((laidOut lower upper large small).zoneOrder index) ∅ := by
  rw [laidOut, List.getElem?_append] at present
  simp only [pageAddress, zoneStart, zoneOrder, laidOut]
  by_cases isLarge : index < large.length
  · simp only [isLarge, if_true] at present ⊢
    obtain ⟨base, accounts⟩ := largeFresh present
    exact ⟨by rw [base]; ring, accounts⟩
  · simp only [isLarge, if_false] at present ⊢
    obtain ⟨base, accounts⟩ := smallFresh present
    exact ⟨by rw [base]; ring, accounts⟩

theorem initializeZones_spec (entries : Nat → Int → FreelistEntry) (lower upper : Nat) :
    ∃ region, (create lower upper).initializeZones entries = some region ∧
      region.lower = lower ∧ region.upper = upper ∧ Initialized region := by
  obtain ⟨large, small, initialized, largeCount, smallCount, largeFresh,
    smallFresh⟩ := initializeZones_eq entries lower upper
  have nonempty : ∀ {index : Nat} {zone : PhysicalZone},
      (laidOut lower upper large small).zones[index]? = some zone →
      zone.available ≠ 0 := by
    intro index zone present
    have accounts := (laidOut_zone largeFresh smallFresh present).2
    have pos := Nat.two_pow_pos ((laidOut lower upper large small).zoneOrder index)
    rw [accounts.available, Finset.card_empty]
    omega
  refine ⟨_, initialized, rfl, rfl, ⟨⟨?_, laidOut_zone largeFresh smallFresh,
    List.nodup_range, List.nodup_nil, ?_, ?_⟩, rfl, ?_, ?_⟩⟩
  · simp [laidOut]
  · intro index
    constructor
    · intro member
      have within : index < (laidOut lower upper large small).zones.length := by
        simpa [laidOut] using member
      have present := List.getElem?_eq_getElem within
      exact ⟨_, present, nonempty present⟩
    · rintro ⟨_, present, _⟩
      have within := (List.getElem?_eq_some_iff.mp present).1
      simpa [laidOut] using within
  · intro index
    constructor
    · intro member
      cases member
    · rintro ⟨_, present, empty⟩
      exact absurd empty (nonempty present)
  · simp only [zoneStart, laidOut, List.length_append]
    split <;> omega
  · simp only [freePages, laidOut, List.map_append, List.sum_append,
      largeFresh.available, smallFresh.available]
    omega

end PhysicalRegion

end MixUpOS.Kernel.Memory
