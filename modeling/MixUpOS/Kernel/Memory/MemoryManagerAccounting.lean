import MixUpOS.Kernel.Memory.MemoryManagerRegions
import MixUpOS.Library.Lists

/-!
# Accounting of physical pages

A run commits pages, takes and returns pages one by one, and takes contiguous
runs of pages.  The counters of the memory manager agree with the pages that
the zones can hand out as long as no page is lost: a region must be cut into
zones without a rest, and a contiguous request must be for a power of two of
pages, since a zone hands out no other number.
-/

namespace MixUpOS.Kernel.Memory

open Library PhysicalRegion Option

namespace GlobalData

/-- The regions hold the pages taken between them. -/
structure Held (regions : List PhysicalRegion) (taken : List Nat) : Prop where
  owned : ∀ region ∈ regions, Owned taken region
  apart : regions.Pairwise RangesApart
  contained : ∀ paddr ∈ taken, ∃ region ∈ regions, region.contains paddr = true

section

variable {data : GlobalData}

theorem contained_of_sameLayout (same : List.Forall₂ SameLayout regions result)
    (contained : ∃ region ∈ regions, region.contains paddr = true) :
    ∃ region ∈ result, region.contains paddr = true := by
  obtain ⟨region, member, inside⟩ := contained
  obtain ⟨found, foundMember, layout⟩ := forall₂_exists_right same member
  refine ⟨found, foundMember, ?_⟩
  rw [layout.contains]
  exact inside

theorem apart_of_sameLayout (same : List.Forall₂ SameLayout regions result)
    (apart : regions.Pairwise RangesApart) : result.Pairwise RangesApart :=
  forall₂_pairwise same apart fun layout otherLayout apart =>
    apart.congr layout otherLayout

theorem Held.served (held : Held regions taken) (served : Served regions taken new amount result) :
    Held result (new ++ taken) := by
  refine ⟨served.owned, apart_of_sameLayout served.same held.apart, ?_⟩
  intro paddr member
  apply contained_of_sameLayout served.same
  rcases List.mem_append.mp member with isNew | isOld
  · obtain ⟨region, inRegions, contained⟩ := served.contained
    exact ⟨region, inRegions, contained paddr isNew⟩
  · exact held.contained paddr isOld

theorem Held.takeCountedPage (held : Held data.physicalRegions taken)
    (available : 0 < freePages data.physicalRegions) :
    ∃ regions page, data.takeCountedPage =
        some ({ physicalRegions := regions
                systemMemoryInfo := { data.systemMemoryInfo with
                  physicalPagesUsed := data.systemMemoryInfo.physicalPagesUsed + 1 } },
          some page) ∧
      Held regions (page :: taken) ∧
      freePages regions + 1 = freePages data.physicalRegions := by
  rcases takeFromRegions_spec held.owned held.apart with
    ⟨_, exhausted⟩ | ⟨regions, page, found, served⟩
  · omega
  · refine ⟨regions, page, ?_, held.served served, served.free⟩
    simp [GlobalData.takeCountedPage, found]

theorem Held.returnToRegion (held : Held regions taken) (member : paddr ∈ taken) :
    ∃ result, returnToRegion paddr regions = some result ∧ Held result (taken.erase paddr) ∧
      freePages result = freePages regions + 1 := by
  obtain ⟨result, success, owned, same, free⟩ :=
    returnToRegion_spec held.owned held.apart member (held.contained paddr member)
  refine ⟨result, success, ⟨owned, apart_of_sameLayout same held.apart, ?_⟩, free⟩
  intro other otherMember
  apply contained_of_sameLayout same
  exact held.contained other (List.mem_of_mem_erase otherMember)

end

/-- The pages that other objects give up during `allocate_physical_page`.
They are only asked if there is no uncommitted page, and the file-backed ones
only if no volatile one released anything. -/
def releasedPages (data : GlobalData) (purged cleaned : Option (List Nat)) : List Nat :=
  match data.findFreePhysicalPage false with
  | some (_, some _) => []
  | _ =>
    match purged with
    | some pages => pages
    | none => cleaned.getD []

/-- The counters agree with the zones and with the pages handed out. -/
structure Counts (data : GlobalData) (taken : List Nat) : Prop where
  held : Held data.physicalRegions taken
  free : freePages data.physicalRegions = data.systemMemoryInfo.physicalPagesCommitted +
      data.systemMemoryInfo.physicalPagesUncommitted
  used : data.systemMemoryInfo.physicalPagesUsed = taken.length
  total : data.systemMemoryInfo.physicalPagesUsed + data.systemMemoryInfo.physicalPagesCommitted +
      data.systemMemoryInfo.physicalPagesUncommitted =
    data.systemMemoryInfo.physicalPages

/-- The counters agree after a call that keeps the promises. -/
structure CountsAfter (data result : GlobalData) (taken : List Nat) : Prop
    extends Counts result taken where
  committed : result.systemMemoryInfo.physicalPagesCommitted =
    data.systemMemoryInfo.physicalPagesCommitted

section

variable {next : GlobalData}

theorem CountsAfter.trans (first : CountsAfter data next taken)
    (second : CountsAfter next result others) : CountsAfter data result others :=
  ⟨second.toCounts, second.committed.trans first.committed⟩

section

variable (counts : Counts data taken)

include counts

theorem Counts.commitPhysicalPages
    (success : data.commitPhysicalPages pageCount = some (result, outcome)) :
    Counts result taken ∧ result.systemMemoryInfo.physicalPagesCommitted =
        data.systemMemoryInfo.physicalPagesCommitted + outcome.toList.sum := by
  have free := counts.free
  have total := counts.total
  unfold GlobalData.commitPhysicalPages at success
  by_cases pos : 0 < pageCount
  · by_cases refused : data.systemMemoryInfo.physicalPagesUncommitted < pageCount
    · simp [pos, refused] at success
      obtain ⟨rfl, rfl⟩ := success
      exact ⟨counts, rfl⟩
    · simp [pos, refused] at success
      obtain ⟨rfl, rfl⟩ := success
      refine ⟨⟨counts.held, ?_, counts.used, ?_⟩, by simp⟩
      · simp only
        omega
      · simp only
        omega
  · simp [pos, AK.verify] at success

theorem Counts.uncommitPhysicalPages (pos : 0 < pageCount)
    (promised : pageCount ≤ data.systemMemoryInfo.physicalPagesCommitted) :
    ∃ result, data.uncommitPhysicalPages pageCount = some result ∧ Counts result taken ∧
      result.systemMemoryInfo.physicalPagesCommitted + pageCount =
        data.systemMemoryInfo.physicalPagesCommitted := by
  have free := counts.free
  have total := counts.total
  refine ⟨{ data with
      systemMemoryInfo := { data.systemMemoryInfo with
        physicalPagesUncommitted := data.systemMemoryInfo.physicalPagesUncommitted + pageCount
        physicalPagesCommitted := data.systemMemoryInfo.physicalPagesCommitted - pageCount } },
    ?_, ⟨counts.held, ?_, counts.used, ?_⟩, ?_⟩
  · simp [GlobalData.uncommitPhysicalPages, pos, promised]
  all_goals
    simp only
    omega

theorem Counts.drawn (drawn : GlobalData) (regions : drawn.physicalRegions = data.physicalRegions)
    (used : drawn.systemMemoryInfo.physicalPagesUsed = data.systemMemoryInfo.physicalPagesUsed)
    (pages : drawn.systemMemoryInfo.physicalPages = data.systemMemoryInfo.physicalPages)
    (decremented : drawn.systemMemoryInfo.physicalPagesCommitted +
        drawn.systemMemoryInfo.physicalPagesUncommitted + 1 =
      data.systemMemoryInfo.physicalPagesCommitted +
        data.systemMemoryInfo.physicalPagesUncommitted) :
    ∃ result page, drawn.takeCountedPage = some (result, some page) ∧
      CountsAfter drawn result (page :: taken) := by
  have free := counts.free
  have total := counts.total
  have usedBefore := counts.used
  have held : Held drawn.physicalRegions taken := by
    rw [regions]
    exact counts.held
  have available : 0 < freePages drawn.physicalRegions := by
    rw [regions]
    omega
  obtain ⟨after, page, found, heldAfter, freeAfter⟩ := held.takeCountedPage available
  rw [regions] at freeAfter
  refine ⟨_, page, found, ⟨heldAfter, ?_, ?_, ?_⟩, rfl⟩
  all_goals
    simp only [List.length_cons]
    omega

theorem Counts.findCommitted (promised : 0 < data.systemMemoryInfo.physicalPagesCommitted) :
    ∃ result page, data.findFreePhysicalPage true = some (result, some page) ∧
      Counts result (page :: taken) ∧ result.systemMemoryInfo.physicalPagesCommitted + 1 =
        data.systemMemoryInfo.physicalPagesCommitted := by
  obtain ⟨result, page, found, after⟩ := counts.drawn { data with
      systemMemoryInfo := { data.systemMemoryInfo with
        physicalPagesCommitted := data.systemMemoryInfo.physicalPagesCommitted - 1 } }
    rfl rfl rfl (by simp only; omega)
  refine ⟨result, page, ?_, after.toCounts, ?_⟩
  · simp only [findFreePhysicalPage, if_true, promised, decide_true,
      AK.verify_true, bind_eq_bind, bind_some]
    exact found
  · rw [after.committed]
    simp only
    omega

theorem Counts.findUncommitted : (data.systemMemoryInfo.physicalPagesUncommitted = 0 ∧
      data.findFreePhysicalPage false = some (data, none)) ∨
    ∃ result page, data.findFreePhysicalPage false = some (result, some page) ∧
      CountsAfter data result (page :: taken) := by
  by_cases empty : data.systemMemoryInfo.physicalPagesUncommitted = 0
  · left
    exact ⟨empty, by simp [findFreePhysicalPage, empty]⟩
  right
  obtain ⟨result, page, found, after⟩ := counts.drawn { data with
      systemMemoryInfo := { data.systemMemoryInfo with
        physicalPagesUncommitted := data.systemMemoryInfo.physicalPagesUncommitted - 1 } }
    rfl rfl rfl (by simp only; omega)
  refine ⟨result, page, ?_, after.toCounts, after.committed⟩
  simp only [findFreePhysicalPage, Bool.false_eq_true, if_false, empty]
  exact found

theorem Counts.deallocatePhysicalPage (member : paddr ∈ taken) :
    ∃ result, data.deallocatePhysicalPage paddr = some result ∧
      CountsAfter data result (taken.erase paddr) := by
  have free := counts.free
  have total := counts.total
  have used := counts.used
  have length := List.length_erase_of_mem member
  have nonempty := List.length_pos_of_mem member
  obtain ⟨regions, success, held, freeAfter⟩ := counts.held.returnToRegion member
  refine ⟨{
      physicalRegions := regions
      systemMemoryInfo := { data.systemMemoryInfo with
        physicalPagesUsed := data.systemMemoryInfo.physicalPagesUsed - 1
        physicalPagesUncommitted := data.systemMemoryInfo.physicalPagesUncommitted + 1 } },
    ?_, ⟨held, ?_, ?_, ?_⟩, rfl⟩
  · simp [GlobalData.deallocatePhysicalPage, success]
  all_goals
    simp only
    omega

theorem Counts.deallocatePhysicalPages {pages : List Nat} (released : pages.Subperm taken) :
    ∃ result, data.deallocatePhysicalPages pages = some result ∧
      CountsAfter data result (taken.diff pages) := by
  induction pages generalizing data taken with
  | nil => exact ⟨data, rfl, counts, rfl⟩
  | cons paddr rest ih =>
    have member : paddr ∈ taken := released.subset List.mem_cons_self
    obtain ⟨next, success, first⟩ := counts.deallocatePhysicalPage member
    have restReleased : rest.Subperm (taken.erase paddr) := by
      have erased := released.erase paddr
      rwa [List.erase_cons_head] at erased
    obtain ⟨result, restSuccess, others⟩ := ih first.toCounts restReleased
    refine ⟨result, ?_, ?_⟩
    · rw [GlobalData.deallocatePhysicalPages, List.foldlM_cons, success]
      exact restSuccess
    · rw [List.diff_cons]
      exact first.trans others

theorem Counts.reclaimPhysicalPage (given : (released.getD []).Subperm taken)
    (success : data.reclaimPhysicalPage released = some (result, page)) :
    CountsAfter data result (page.toList ++ taken.diff (released.getD [])) ∧
      page.isSome = released.isSome := by
  cases released with
  | none =>
    cases success
    exact ⟨⟨counts, rfl⟩, rfl⟩
  | some pages =>
    rw [getD_some] at given
    obtain ⟨next, dropped, after⟩ := counts.deallocatePhysicalPages given
    rcases after.findUncommitted with ⟨_, nothing⟩ | ⟨_, found, taking, afterFound⟩
    · simp [GlobalData.reclaimPhysicalPage, dropped, nothing, AK.verify] at success
    · simp [GlobalData.reclaimPhysicalPage, dropped, taking] at success
      obtain ⟨rfl, rfl⟩ := success
      exact ⟨after.trans afterFound, rfl⟩

theorem Counts.allocatePhysicalPage (given : (releasedPages data purged cleaned).Subperm taken)
    (success : data.allocatePhysicalPage purged cleaned = some (result, page)) :
    CountsAfter data result (page.toList ++ taken.diff (releasedPages data purged cleaned)) := by
  rcases counts.findUncommitted with ⟨_, nothing⟩ | ⟨next, found, taking, after⟩
  · simp only [releasedPages, nothing] at given ⊢
    simp only [GlobalData.allocatePhysicalPage, nothing, bind_eq_bind, bind_some, isSome_none,
      Bool.false_eq_true, if_false] at success
    cases purged with
    | none => exact (counts.reclaimPhysicalPage given success).1
    | some pages =>
      cases purging : data.reclaimPhysicalPage (some pages) with
      | none =>
        rw [purging] at success
        cases success
      | some outcome =>
        have givenPages : ((some pages).getD []).Subperm taken := given
        obtain ⟨after, isFound⟩ := counts.reclaimPhysicalPage givenPages purging
        rw [purging] at success
        simp only [bind_some, isFound, isSome_some, if_true] at success
        cases success
        exact after
  · simp only [releasedPages, taking]
    simp [GlobalData.allocatePhysicalPage, taking] at success
    obtain ⟨rfl, rfl⟩ := success
    exact after

end

theorem Counts.allocateContiguousPhysicalPages (counts : Counts data taken) {pages : List Nat}
    (bound : size < 2 ^ 64) (powerOfTwo : ∃ exponent, size / pageSize = 2 ^ exponent)
    (success : data.allocateContiguousPhysicalPages heap size = some (result, pages)) :
    CountsAfter data result (pages ++ taken) := by
  have free := counts.free
  have total := counts.total
  have used := counts.used
  unfold GlobalData.allocateContiguousPhysicalPages at success
  by_cases multiple : size % pageSize = 0
  · have countEq : AK.ceilDiv size pageSize = size / pageSize := by
      simp [AK.ceilDiv, multiple]
    have addressable : size / pageSize * pageSize < 2 ^ 64 :=
      Nat.lt_of_le_of_lt (Nat.div_mul_le_self _ _) bound
    by_cases refused : data.systemMemoryInfo.physicalPagesUncommitted < size / pageSize
    · simp [multiple, countEq, refused] at success
      obtain ⟨rfl, rfl⟩ := success
      exact ⟨counts, rfl⟩
    · rcases takeContiguousFromRegions_spec heap addressable
        counts.held.owned counts.held.apart with
        stopped | nothing | ⟨regions, found, taking, nonempty, length, above, below, served⟩
      · simp [countEq, refused, stopped] at success
      · simp [multiple, countEq, refused, nothing] at success
        obtain ⟨rfl, rfl⟩ := success
        exact ⟨counts, rfl⟩
      · simp [multiple, countEq, refused, taking, nonempty] at success
        obtain ⟨rfl, rfl⟩ := success
        have exact : 2 ^ contiguousOrder (size / pageSize) = size / pageSize := by
          obtain ⟨exponent, isPower⟩ := powerOfTwo
          rw [isPower] at above below ⊢
          have atLeast := (Nat.pow_le_pow_iff_right (by omega : 1 < 2)).mp above
          have atMost : contiguousOrder (2 ^ exponent) < exponent + 1 := by
            apply (Nat.pow_lt_pow_iff_right (by omega : 1 < 2)).mp
            rwa [Nat.pow_succ, Nat.mul_comm]
          rw [Nat.le_antisymm (Nat.le_of_lt_succ atMost) atLeast]
        have freeAfter := served.free
        refine ⟨⟨counts.held.served served, ?_, ?_, ?_⟩, rfl⟩
        all_goals
          simp only [List.length_append, length]
          omega
  · simp [multiple, AK.verify] at success

theorem Counts.scribble (counts : Counts data taken) (member : paddr ∈ taken)
    (regions : data.physicalRegions = before ++ region :: after)
    (present : region.zones[index]? = some zone) (contains : zone.contains paddr = true)
    (entry : FreelistEntry) :
    Counts { data with
      physicalRegions := before ++ region.setZone index (zone.scribble paddr entry) :: after }
      taken := by
  have held := counts.held
  rw [regions] at held
  have same := sameLayout_setZone region index (zone.scribble paddr entry)
  have sameEach : List.Forall₂ SameLayout (before ++ region :: after)
      (before ++ region.setZone index (zone.scribble paddr entry) :: after) :=
    List.rel_append (forall₂_sameLayout_refl before) (.cons same (forall₂_sameLayout_refl after))
  refine ⟨⟨?_, apart_of_sameLayout sameEach held.apart, ?_⟩, ?_, counts.used, counts.total⟩
  · intro other otherMember
    rcases List.mem_append.mp otherMember with earlier | rest
    · exact held.owned other (List.mem_append_left _ earlier)
    · rcases List.mem_cons.mp rest with rfl | later
      · apply Owned.scribble _ member present contains entry
        exact held.owned region (List.mem_append_right _ List.mem_cons_self)
      · exact held.owned other (List.mem_append_right _ (List.mem_cons_of_mem _ later))
  · intro other otherTaken
    exact contained_of_sameLayout sameEach (held.contained other otherTaken)
  · have free := counts.free
    have sameFree : (region.setZone index (zone.scribble paddr entry)).freePages =
        region.freePages := by
      have total := sum_available_set (zone.scribble paddr entry) present
      exact Nat.add_right_cancel total
    rw [regions] at free
    simp only [freePages, List.map_append, List.map_cons, List.sum_append,
      List.sum_cons, sameFree] at free ⊢
    exact free

end

end GlobalData

open GlobalData

/-- The address ranges that the physical regions are made from. -/
structure MemoryMap where
  ranges : List (Nat × Nat)
  apart : ranges.Pairwise fun range other =>
    range.2 ≤ other.1 ∨ other.2 ≤ range.1

/-- The manager's data, the pages handed out and the committed sets alive. -/
structure Ledger where
  data : GlobalData
  taken : List Nat
  sets : List CommittedPhysicalPageSet

namespace Ledger

/-- One call, or the holder of a page writing over its page entry.  `allowed`
restricts the page counts of contiguous requests. -/
inductive Step (allowed : Nat → Prop) : Ledger → Ledger → Prop where
  | commit {data result : GlobalData} {taken : List Nat}
      {sets : List CommittedPhysicalPageSet} {pageCount : Nat}
      {outcome : Option Nat} :
      data.commitPhysicalPages pageCount = some (result, outcome) →
      Step allowed ⟨data, taken, sets⟩ ⟨result, taken, outcome.toList.map .mk ++ sets⟩
  | takeOne {data result : GlobalData} {taken : List Nat} {sets : List CommittedPhysicalPageSet}
      {set remaining : CommittedPhysicalPageSet} {page : Nat} :
      set ∈ sets → set.takeOne data = some (remaining, result, page) →
      Step allowed ⟨data, taken, sets⟩ ⟨result, page :: taken, remaining :: sets.erase set⟩
  | uncommitOne {data result : GlobalData} {taken : List Nat} {sets : List CommittedPhysicalPageSet}
      {set remaining : CommittedPhysicalPageSet} :
      set ∈ sets → set.uncommitOne data = some (remaining, result) →
      Step allowed ⟨data, taken, sets⟩ ⟨result, taken, remaining :: sets.erase set⟩
  | destroy {data result : GlobalData} {taken : List Nat} {sets : List CommittedPhysicalPageSet}
      {set : CommittedPhysicalPageSet} :
      set ∈ sets → set.destroy data = some result →
      Step allowed ⟨data, taken, sets⟩ ⟨result, taken, sets.erase set⟩
  | allocatePhysicalPage {data result : GlobalData} {taken : List Nat}
      {sets : List CommittedPhysicalPageSet}
      {purged cleaned : Option (List Nat)} {page : Option Nat} :
      (releasedPages data purged cleaned).Subperm taken →
      data.allocatePhysicalPage purged cleaned = some (result, page) →
      Step allowed ⟨data, taken, sets⟩ ⟨result, page.toList ++
          taken.diff (releasedPages data purged cleaned), sets⟩
  | allocateContiguousPhysicalPages {data result : GlobalData}
      {taken pages : List Nat} {sets : List CommittedPhysicalPageSet}
      {heap : KernelHeap} {size : Nat} :
      size < 2 ^ 64 → allowed (size / pageSize) →
      data.allocateContiguousPhysicalPages heap size = some (result, pages) →
      Step allowed ⟨data, taken, sets⟩ ⟨result, pages ++ taken, sets⟩
  | deallocatePhysicalPage {data result : GlobalData} {taken : List Nat}
      {sets : List CommittedPhysicalPageSet} {paddr : Nat} :
      paddr ∈ taken → data.deallocatePhysicalPage paddr = some result →
      Step allowed ⟨data, taken, sets⟩ ⟨result, taken.erase paddr, sets⟩
  | scribble {data : GlobalData} {taken : List Nat} {sets : List CommittedPhysicalPageSet}
      {before after : List PhysicalRegion} {region : PhysicalRegion}
      {zone : PhysicalZone} {paddr index : Nat} {entry : FreelistEntry} :
      paddr ∈ taken →
      data.physicalRegions = before ++ region :: after →
      region.zones[index]? = some zone → zone.contains paddr = true →
      Step allowed ⟨data, taken, sets⟩ ⟨{ data with
            physicalRegions := before ++
              region.setZone index (zone.scribble paddr entry) :: after },
          taken, sets⟩

/-- The states of runs whose contiguous requests are all `allowed`. -/
def Reachable (map : MemoryMap) (allowed : Nat → Prop) (ledger : Ledger) : Prop :=
  ∃ entries data, parseMemoryMap entries map.ranges = some data ∧
    Relation.ReflTransGen (Step allowed) ⟨data, [], []⟩ ledger

/-- The counters agree with the zones, with the pages handed out and with the
committed sets. -/
structure Balanced (ledger : Ledger) : Prop where
  counts : Counts ledger.data ledger.taken
  committed : ledger.data.systemMemoryInfo.physicalPagesCommitted =
    (ledger.sets.map CommittedPhysicalPageSet.pageCount).sum

section

variable {next : Ledger}
variable {set : CommittedPhysicalPageSet}

section

variable (balanced : Balanced ledger)

include balanced

theorem Balanced.after {taken : List Nat} (after : CountsAfter ledger.data result taken) :
    Balanced ⟨result, taken, ledger.sets⟩ :=
  ⟨after.toCounts, after.committed.trans balanced.committed⟩

section

variable (member : set ∈ ledger.sets)

include member

theorem Balanced.sum_erase :
    set.pageCount + ((ledger.sets.erase set).map CommittedPhysicalPageSet.pageCount).sum =
      ledger.data.systemMemoryInfo.physicalPagesCommitted := by
  rw [balanced.committed]
  exact List.sum_map_erase _ member

theorem Balanced.takeOne (pos : 0 < set.pageCount) : ∃ remaining result page,
      set.takeOne ledger.data = some (remaining, result, page) ∧
      Balanced ⟨result, page :: ledger.taken, remaining :: ledger.sets.erase set⟩ := by
  have sum := balanced.sum_erase member
  obtain ⟨result, page, found, counts, committed⟩ := balanced.counts.findCommitted (by omega)
  refine ⟨⟨set.pageCount - 1⟩, result, page, ?_, counts, ?_⟩
  · simp [CommittedPhysicalPageSet.takeOne, pos, allocateCommittedPhysicalPage, found]
  · simp only [List.map_cons, List.sum_cons]
    omega

theorem Balanced.uncommitOne (pos : 0 < set.pageCount) : ∃ remaining result,
      set.uncommitOne ledger.data = some (remaining, result) ∧
      Balanced ⟨result, ledger.taken, remaining :: ledger.sets.erase set⟩ := by
  have sum := balanced.sum_erase member
  obtain ⟨result, success, counts, committed⟩ :=
    balanced.counts.uncommitPhysicalPages Nat.one_pos (by omega)
  refine ⟨⟨set.pageCount - 1⟩, result, ?_, counts, ?_⟩
  · simp [CommittedPhysicalPageSet.uncommitOne, pos, success]
  · simp only [List.map_cons, List.sum_cons]
    omega

theorem Balanced.destroy : ∃ result, set.destroy ledger.data = some result ∧
      Balanced ⟨result, ledger.taken, ledger.sets.erase set⟩ := by
  have sum := balanced.sum_erase member
  by_cases empty : set.pageCount = 0
  · refine ⟨ledger.data, ?_, balanced.counts, ?_⟩
    · simp [CommittedPhysicalPageSet.destroy, empty]
    · simp only
      omega
  · obtain ⟨result, success, counts, committed⟩ :=
      balanced.counts.uncommitPhysicalPages (Nat.pos_of_ne_zero empty) (by omega)
    refine ⟨result, ?_, counts, ?_⟩
    · simp [CommittedPhysicalPageSet.destroy, empty, success]
    · simp only
      omega

end

end

theorem Balanced.step
    (powersOfTwo : ∀ pageCount, allowed pageCount → ∃ exponent, pageCount = 2 ^ exponent)
    (balanced : Balanced ledger) (step : Step allowed ledger next) : Balanced next := by
  cases step with
  | @commit _ _ _ _ _ outcome success =>
    obtain ⟨counts, committed⟩ := balanced.counts.commitPhysicalPages success
    refine ⟨counts, ?_⟩
    rw [committed, balanced.committed]
    cases outcome <;> simp [Nat.add_comm]
  | @takeOne _ _ _ _ set _ _ member success =>
    have pos : 0 < set.pageCount := by
      by_contra empty
      simp [CommittedPhysicalPageSet.takeOne, empty, AK.verify] at success
    obtain ⟨_, _, _, taking, after⟩ := balanced.takeOne member pos
    cases success.symm.trans taking
    exact after
  | @uncommitOne _ _ _ _ set _ member success =>
    have pos : 0 < set.pageCount := by
      by_contra empty
      simp [CommittedPhysicalPageSet.uncommitOne, empty, AK.verify] at success
    obtain ⟨_, _, giving, after⟩ := balanced.uncommitOne member pos
    cases success.symm.trans giving
    exact after
  | destroy member success =>
    obtain ⟨_, giving, after⟩ := balanced.destroy member
    cases success.symm.trans giving
    exact after
  | allocatePhysicalPage given success =>
    exact balanced.after (balanced.counts.allocatePhysicalPage given success)
  | allocateContiguousPhysicalPages bound isAllowed success =>
    exact balanced.after
      (balanced.counts.allocateContiguousPhysicalPages bound (powersOfTwo _ isAllowed) success)
  | deallocatePhysicalPage member success =>
    obtain ⟨_, returning, after⟩ := balanced.counts.deallocatePhysicalPage member
    cases success.symm.trans returning
    exact balanced.after after
  | scribble member regions present contains =>
    exact ⟨balanced.counts.scribble member regions present contains _, balanced.committed⟩

end

section

variable {map : MemoryMap}
/-- The region was made from the range. -/
def MadeFrom (range : Nat × Nat) (region : PhysicalRegion) : Prop :=
  region.lower = range.1 ∧ region.upper = range.2 ∧ Initialized region

theorem initializeRegions_spec (entries : Nat → Int → FreelistEntry) (ranges : List (Nat × Nat)) :
    ∃ regions, initializeRegions entries ranges = some regions ∧
      List.Forall₂ MadeFrom ranges regions := by
  induction ranges with
  | nil => exact ⟨[], rfl, .nil⟩
  | cons range rest ih =>
    obtain ⟨lower, upper⟩ := range
    obtain ⟨regions, success, made⟩ := ih
    obtain ⟨region, initialized, lowerEq, upperEq, fresh⟩ :=
      initializeZones_spec entries lower upper
    refine ⟨region :: regions, ?_, .cons ⟨lowerEq, upperEq, fresh⟩ made⟩
    simp [initializeRegions, initialized, success]

theorem held_of_madeFrom (made : List.Forall₂ MadeFrom map.ranges regions) : Held regions [] := by
  refine ⟨?_, ?_, by simp⟩
  · intro region member
    obtain ⟨range, _, _, _, fresh⟩ := forall₂_exists_left made member
    refine ⟨?_, _, fresh.sound, List.nodup_nil, by simp⟩
    rw [fresh.zoneStart, ← fresh.pages]
    exact Nat.sub_le _ _
  · apply forall₂_pairwise made map.apart
    rintro range other region otherRegion ⟨lower, upper, _⟩ ⟨otherLower, otherUpper, _⟩ apart
    unfold RangesApart
    rw [lower, upper, otherLower, otherUpper]
    exact apart

theorem freePages_of_madeFrom (made : List.Forall₂ MadeFrom ranges regions)
    (wholeZones : ∀ range ∈ ranges, (range.2 - range.1) / pageSize % 256 = 0) :
    freePages regions = (ranges.map fun range =>
      (PhysicalRegion.create range.1 range.2).pages).sum := by
  induction made with
  | nil => rfl
  | @cons range region rest others here _ ih =>
    obtain ⟨lower, upper, fresh⟩ := here
    have restFree := ih (List.forall_mem_cons.mp wholeZones).2
    have whole := wholeZones range List.mem_cons_self
    have pages : region.freePages = (PhysicalRegion.create range.1 range.2).pages := by
      rw [fresh.freePages, fresh.pages, lower, upper, whole]
      rfl
    simp only [GlobalData.freePages, List.map_cons, List.sum_cons, pages]
    simp only [GlobalData.freePages] at restFree
    rw [restFree]

theorem Balanced.initial {data : GlobalData}
    (wholeZones : ∀ range ∈ map.ranges, (range.2 - range.1) / pageSize % 256 = 0)
    (parsed : parseMemoryMap entries map.ranges = some data) : Balanced ⟨data, [], []⟩ := by
  obtain ⟨regions, success, made⟩ := initializeRegions_spec entries map.ranges
  simp only [parseMemoryMap, success, bind_eq_bind, bind_some, pure_def, some.injEq] at parsed
  subst parsed
  refine ⟨⟨held_of_madeFrom made, ?_, rfl, ?_⟩, rfl⟩
  · rw [freePages_of_madeFrom made wholeZones]
    simp
  · simp

end

/-- What the counters promise is there: the free pages of the zones are the
pages promised or unused, every promise can be kept and every page handed out
can be returned. -/
structure Accurate (ledger : Ledger) : Prop where
  free : freePages ledger.data.physicalRegions =
    ledger.data.systemMemoryInfo.physicalPagesCommitted +
      ledger.data.systemMemoryInfo.physicalPagesUncommitted
  total : ledger.data.systemMemoryInfo.physicalPagesUsed +
      ledger.data.systemMemoryInfo.physicalPagesCommitted +
      ledger.data.systemMemoryInfo.physicalPagesUncommitted =
    ledger.data.systemMemoryInfo.physicalPages
  takeOne : ∀ set ∈ ledger.sets, 0 < set.pageCount → (set.takeOne ledger.data).isSome
  deallocatePhysicalPage : ∀ paddr ∈ ledger.taken, (ledger.data.deallocatePhysicalPage paddr).isSome

theorem Balanced.accurate (balanced : Balanced ledger) : Accurate ledger := by
  refine ⟨balanced.counts.free, balanced.counts.total, ?_, ?_⟩
  · intro set member pos
    obtain ⟨_, _, _, success, _⟩ := balanced.takeOne member pos
    rw [success]
    rfl
  · intro paddr member
    obtain ⟨_, success, _⟩ := balanced.counts.deallocatePhysicalPage member
    rw [success]
    rfl

def IsPowerOfTwo (pageCount : Nat) : Prop := ∃ exponent, pageCount = 2 ^ exponent

/-- In a machine whose regions are whole numbers of small zones, every run
whose contiguous requests are for powers of two of pages keeps the books. -/
theorem reachable_accurate {map : MemoryMap} {ledger : Ledger}
    (wholeZones : ∀ range ∈ map.ranges, (range.2 - range.1) / pageSize % 256 = 0)
    (reachable : Reachable map IsPowerOfTwo ledger) : Accurate ledger := by
  obtain ⟨entries, data, parsed, run⟩ := reachable
  have balanced : Balanced ledger := by
    induction run with
    | refl => exact Balanced.initial wholeZones parsed
    | tail _ step ih => exact ih.step (fun _ power => power) step
  exact balanced.accurate

/-- A heap that grants everything up to its limit. -/
def ampleHeap : KernelHeap where
  canAllocate := fun bytes => decide (bytes ≤ kernelHeapLimit)
  bounded := by simp

def oneRange (upper : Nat) : MemoryMap where
  ranges := [(0, upper)]
  apart := List.pairwise_singleton _ _

/-- The pages free in the zones, the pages promised or unused, and the pages
handed out after one contiguous request on a fresh machine. -/
def afterContiguous (upper size : Nat) : Option (Nat × Nat × List Nat) := do
  let data ← parseMemoryMap (fun _ _ => ⟨0, 0⟩) (oneRange upper).ranges
  let (data, pages) ← data.allocateContiguousPhysicalPages ampleHeap size
  return (GlobalData.freePages data.physicalRegions, data.systemMemoryInfo.physicalPagesCommitted +
      data.systemMemoryInfo.physicalPagesUncommitted,
    pages)

theorem reachable_contiguous (allowed : Nat → Prop) {upper : Nat} {pages : List Nat}
    (bound : size < 2 ^ 64) (isAllowed : allowed (size / pageSize))
    (evaluated : afterContiguous upper size = some (free, promised, pages)) :
    ∃ ledger, Reachable (oneRange upper) allowed ledger ∧ ledger.taken = pages ∧
      GlobalData.freePages ledger.data.physicalRegions = free ∧
      ledger.data.systemMemoryInfo.physicalPagesCommitted +
        ledger.data.systemMemoryInfo.physicalPagesUncommitted = promised := by
  obtain ⟨data, parsed, rest⟩ := bind_eq_some_iff.mp evaluated
  obtain ⟨⟨result, _⟩, allocated, outcome⟩ := bind_eq_some_iff.mp rest
  cases outcome
  refine ⟨⟨result, pages ++ [], []⟩, ⟨_, data, parsed, ?_⟩, by simp, rfl, rfl⟩
  exact .single (.allocateContiguousPhysicalPages bound isAllowed allocated)

theorem reachable_accurate_fourPages :
    ∃ ledger, ledger.taken = [1032192, 1036288, 1040384, 1044480] ∧ Accurate ledger := by
  have evaluated : afterContiguous 1048576 16384 =
      some (252, 252, [1032192, 1036288, 1040384, 1044480]) := by
    decide +kernel
  have power : IsPowerOfTwo (16384 / pageSize) := ⟨2, by decide⟩
  obtain ⟨ledger, reachable, taken, _⟩ :=
    reachable_contiguous IsPowerOfTwo (by decide) power evaluated
  exact ⟨ledger, taken, reachable_accurate (by decide) reachable⟩

/-- Three contiguous pages cost a zone four; and a region of sixteen pages
has no zone at all, so the first page promised from it is missing. -/
theorem accounting_broken : (∃ ledger, Reachable (oneRange 1048576) (fun _ => True) ledger ∧
      GlobalData.freePages ledger.data.physicalRegions = 252 ∧
      ledger.data.systemMemoryInfo.physicalPagesCommitted +
        ledger.data.systemMemoryInfo.physicalPagesUncommitted = 253) ∧
    ∃ ledger, Reachable (oneRange 65536) (fun _ => True) ledger ∧ ledger.sets = [⟨1⟩] ∧
      (⟨1⟩ : CommittedPhysicalPageSet).takeOne ledger.data = none := by
  constructor
  · have evaluated : afterContiguous 1048576 12288 =
        some (252, 253, [1032192, 1036288, 1040384]) := by
      decide +kernel
    obtain ⟨ledger, reachable, _, free, promised⟩ :=
      reachable_contiguous (fun _ => True) (by decide) trivial evaluated
    exact ⟨ledger, reachable, free, promised⟩
  · have evaluated : ((parseMemoryMap (fun _ _ => ⟨0, 0⟩) (oneRange 65536).ranges).bind fun data =>
          (data.commitPhysicalPages 1).map fun outcome =>
            (outcome.2, ((⟨1⟩ : CommittedPhysicalPageSet).takeOne
              outcome.1).isNone)) = some (some 1, true) := by
      decide +kernel
    obtain ⟨data, parsed, evaluated⟩ := Option.bind_eq_some_iff.mp evaluated
    obtain ⟨⟨result, _⟩, committed, outcome⟩ := Option.map_eq_some_iff.mp evaluated
    obtain ⟨rfl, failed⟩ := Prod.mk.inj outcome
    exact ⟨⟨result, [], [⟨1⟩]⟩, ⟨_, data, parsed, .single (.commit committed)⟩, rfl,
      Option.isNone_iff_eq_none.mp failed⟩

end Ledger

end MixUpOS.Kernel.Memory
