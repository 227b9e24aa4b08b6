import MixUpOS.Kernel.Memory.PhysicalRegionZones

/-!
# Runs of a physical region

Pages are taken from a region one by one or as contiguous runs, and given
back one by one.  In every state of such a run each zone is on the list that
its free pages say, and `return_page` finds the zone of every page.
-/

namespace MixUpOS.Kernel.Memory

namespace PhysicalRegion

/-- A region and the addresses of the pages taken from it. -/
structure Loan where
  region : PhysicalRegion
  taken : List Nat

namespace Loan

/-- One call.  The callers of `take_contiguous_free_pages` count the pages of
a size in bytes, and the holder of a page may write over its page entry. -/
inductive Step : Loan → Loan → Prop where
  | takeFreePage {region result : PhysicalRegion} {taken : List Nat} {page : Option Nat} :
      region.takeFreePage = some (result, page) →
      Step ⟨region, taken⟩ ⟨result, page.toList ++ taken⟩
  | takeContiguousFreePages {region result : PhysicalRegion}
      {taken pages : List Nat} {heap : KernelHeap} {size : Nat} :
      size < 2 ^ 64 →
      region.takeContiguousFreePages heap (size / pageSize) = some (result, pages) →
      Step ⟨region, taken⟩ ⟨result, pages ++ taken⟩
  | returnPage {region result : PhysicalRegion} {taken : List Nat} {paddr : Nat} :
      paddr ∈ taken → region.returnPage paddr = some result →
      Step ⟨region, taken⟩ ⟨result, taken.erase paddr⟩
  | scribble {region : PhysicalRegion} {taken : List Nat}
      {paddr index : Nat} {zone : PhysicalZone} {entry : FreelistEntry} :
      paddr ∈ taken → region.zones[index]? = some zone →
      zone.contains paddr = true →
      Step ⟨region, taken⟩ ⟨region.setZone index (zone.scribble paddr entry), taken⟩

/-- The states of the region between the given addresses. -/
def Reachable (lower upper : Nat) (state : Loan) : Prop :=
  ∃ entries region, (create lower upper).initializeZones entries = some region ∧
    Relation.ReflTransGen Step ⟨region, []⟩ state

/-- The pages taken are used pages of the zones. -/
structure Holds (state : Loan) (used : Nat → Finset Nat) : Prop where
  sound : Sound state.region used
  nodup : state.taken.Nodup
  taken : ∀ paddr ∈ state.taken, ∃ index page,
    index < state.region.zones.length ∧ page ∈ used index ∧
    paddr = state.region.pageAddress index page

variable {lower upper : Nat} {state next : Loan}
variable {region result : PhysicalRegion} {taken : List Nat}
section

variable (holds : Holds ⟨region, taken⟩ used)

include holds

theorem Holds.extend {pages : Finset Nat} (takes : Taken region used index pages result)
    (newNodup : new.Nodup)
    (newPages : ∀ paddr ∈ new, ∃ page ∈ pages, paddr = region.pageAddress index page) :
    Holds ⟨result, new ++ taken⟩ (Function.update used index (pages ∪ used index)) := by
  have sameAddress := takes.same.pageAddress
  refine ⟨takes.sound, List.nodup_append.mpr ⟨newNodup, holds.nodup, ?_⟩, ?_⟩
  · rintro paddr isNew _ isOld rfl
    obtain ⟨page, inPages, address⟩ := newPages paddr isNew
    obtain ⟨other, otherPage, within, inUse, otherAddress⟩ := holds.taken paddr isOld
    obtain ⟨_, accounts⟩ := holds.sound.zone (List.getElem?_eq_getElem within)
    obtain ⟨rfl, rfl⟩ := pageAddress_injective (takes.inside page inPages)
      (accounts.inside otherPage inUse) (address.symm.trans otherAddress)
    exact Finset.disjoint_left.mp takes.unused inPages inUse
  · intro paddr member
    rcases List.mem_append.mp member with isNew | isOld
    · obtain ⟨page, inPages, address⟩ := newPages paddr isNew
      refine ⟨index, page, ?_, ?_, ?_⟩
      · rw [takes.same.zones]
        exact takes.within
      · rw [Function.update_self]
        exact Finset.mem_union_left _ inPages
      · rw [sameAddress]
        exact address
    · obtain ⟨other, otherPage, within, inUse, address⟩ := holds.taken paddr isOld
      refine ⟨other, otherPage, ?_, ?_, ?_⟩
      · rw [takes.same.zones]
        exact within
      · by_cases same : other = index
        · subst same
          rw [Function.update_self]
          exact Finset.mem_union_right _ inUse
        · rwa [Function.update_of_ne same]
      · rw [sameAddress]
        exact address

theorem Holds.returnPage (member : paddr ∈ taken) :
    ∃ result used', region.returnPage paddr = some result ∧
      Holds ⟨result, taken.erase paddr⟩ used' ∧ SameLayout region result ∧
      result.freePages = region.freePages + 1 := by
  obtain ⟨index, page, within, inUse, rfl⟩ := holds.taken paddr member
  obtain ⟨result, success, sound, same, free⟩ := holds.sound.returnPage within inUse
  refine ⟨result, _, success, ⟨sound, holds.nodup.erase _, ?_⟩, same, free⟩
  intro other otherMember
  obtain ⟨differ, stillTaken⟩ := holds.nodup.mem_erase_iff.mp otherMember
  obtain ⟨otherIndex, otherPage, otherWithin, otherInUse, address⟩ := holds.taken other stillTaken
  refine ⟨otherIndex, otherPage, ?_, ?_, ?_⟩
  · rw [same.zones]
    exact otherWithin
  · by_cases sameIndex : otherIndex = index
    · subst sameIndex
      rw [Function.update_self, Finset.mem_sdiff, Finset.mem_singleton]
      refine ⟨otherInUse, ?_⟩
      rintro rfl
      exact differ address
    · rwa [Function.update_of_ne sameIndex]
  · rw [same.pageAddress]
    exact address

theorem Holds.scribble (member : paddr ∈ taken) (present : region.zones[index]? = some zone)
    (contains : zone.contains paddr = true) (entry : FreelistEntry) :
    Holds ⟨region.setZone index (zone.scribble paddr entry), taken⟩ used := by
  obtain ⟨owner, page, within, inUse, rfl⟩ := holds.taken paddr member
  have inside := (holds.sound.zone (List.getElem?_eq_getElem within)).2.inside page inUse
  have sameIndex : owner = index := by
    rw [← zoneIndex_pageAddress inside]
    exact holds.sound.zoneIndex_of_contains present contains
  subst sameIndex
  have base : zone.baseAddress = region.pageAddress owner 0 := (holds.sound.zone present).1
  have pageEq : (region.pageAddress owner page - zone.baseAddress) / pageSize = page := by
    have offset : region.pageAddress owner page = region.pageAddress owner 0 + page * pageSize := by
      rw [pageAddress, pageAddress]
      ring
    rw [base, offset, Nat.add_sub_cancel_left, Nat.mul_div_cancel _ (by decide)]
  refine ⟨?_, holds.nodup, ?_⟩
  · simp only [PhysicalZone.scribble, pageEq]
    exact holds.sound.scribble present inUse entry
  intro other otherMember
  obtain ⟨otherIndex, otherPage, otherWithin, otherInUse, address⟩ := holds.taken other otherMember
  refine ⟨otherIndex, otherPage, ?_, otherInUse, ?_⟩
  · simpa [setZone] using otherWithin
  · exact address

end

theorem Holds.step (holds : ∃ used, Holds state used)
    (step : Step state next) : ∃ used, Holds next used := by
  obtain ⟨used, holds⟩ := holds
  cases step with
  | @takeFreePage region result taken page success =>
    rcases holds.sound.takeFreePage with
      ⟨_, nothing⟩ | ⟨_, index, page, taking, takes⟩
    · cases success.symm.trans nothing
      exact ⟨used, holds⟩
    · cases success.symm.trans taking
      exact ⟨_, holds.extend takes (List.nodup_singleton _) (by simp)⟩
  | @takeContiguousFreePages region result taken pages heap size bound success =>
    have addressable : size / pageSize * pageSize < 2 ^ 64 :=
      Nat.lt_of_le_of_lt (Nat.div_mul_le_self _ _) bound
    rcases holds.sound.takeContiguousFreePages heap addressable with
      nothing | ⟨stopped, _⟩ | ⟨_, index, number, taking, takes, _, fits, _⟩
    · cases success.symm.trans nothing
      exact ⟨used, holds⟩
    · cases success.symm.trans stopped
    · cases success.symm.trans taking
      exact ⟨_, holds.extend takes (contiguous_nodup region index _ _)
        (fun paddr member => contiguous_inBlock fits member)⟩
  | @returnPage region result taken paddr member success =>
    obtain ⟨_, _, returned, resultHolds, _⟩ := holds.returnPage member
    cases success.symm.trans returned
    exact ⟨_, resultHolds⟩
  | @scribble region taken paddr index zone entry member present contains =>
    exact ⟨used, holds.scribble member present contains entry⟩

theorem Reachable.holds (reachable : Reachable lower upper state) : ∃ used, Holds state used := by
  obtain ⟨entries, region, initialized, run⟩ := reachable
  obtain ⟨_, success, _, _, fresh⟩ := initializeZones_spec entries lower upper
  cases initialized.symm.trans success
  induction run with
  | refl => exact ⟨_, fresh.sound, List.nodup_nil, by simp⟩
  | tail _ step ih => exact Holds.step ih step

/-- The lists and the zone numbers agree with the zones, and no call that a
run can make next fails a `VERIFY` of the region or of a zone. -/
structure Consistent (state : Loan) : Prop where
  oneList : ∀ index, index < state.region.zones.length → state.region.usableZones.count index +
      state.region.fullZones.count index = 1
  onlyZones : ∀ index, index ∈ state.region.usableZones ++ state.region.fullZones →
    index < state.region.zones.length
  full_iff : ∀ index zone, state.region.zones[index]? = some zone →
    (index ∈ state.region.fullZones ↔ zone.available = 0)
  zoneIndex : ∀ index zone paddr, state.region.zones[index]? = some zone →
    zone.contains paddr = true → state.region.zoneIndex paddr = index
  selected : ∀ paddr ∈ state.taken, ∃ zone,
    state.region.zones[state.region.zoneIndex paddr]? = some zone ∧
    zone.contains paddr = true
  takeFreePage : state.region.takeFreePage.isSome
  takeContiguousFreePages : ∀ heap size, size < 2 ^ 64 →
    heap.tryEnsureCapacity (size / pageSize) = true →
    (state.region.takeContiguousFreePages heap (size / pageSize)).isSome
  returnPage : ∀ paddr ∈ state.taken, (state.region.returnPage paddr).isSome

theorem Holds.consistent (holds : Holds state used) : Consistent state := by
  have sound := holds.sound
  refine ⟨?_, ?_, ?_, ?_, ?_, ?_, ?_, ?_⟩
  · intro index within
    rw [sound.usableNodup.count, sound.fullNodup.count]
    rcases sound.usable_or_full (List.getElem?_eq_getElem within) with
      usable | full
    · have notFull : index ∉ state.region.fullZones :=
        fun full => sound.not_usable_and_full usable full
      simp [usable, notFull]
    · have notUsable : index ∉ state.region.usableZones :=
        fun usable => sound.not_usable_and_full usable full
      simp [full, notUsable]
  · intro index member
    rcases List.mem_append.mp member with usable | full
    · obtain ⟨_, present, _⟩ := (sound.mem_usable index).mp usable
      exact (List.getElem?_eq_some_iff.mp present).1
    · obtain ⟨_, present, _⟩ := (sound.mem_full index).mp full
      exact (List.getElem?_eq_some_iff.mp present).1
  · intro index zone present
    rw [sound.mem_full]
    simp [present]
  · intro index zone paddr present contains
    exact sound.zoneIndex_of_contains present contains
  · intro paddr member
    obtain ⟨index, page, within, inUse, rfl⟩ := holds.taken paddr member
    have present := List.getElem?_eq_getElem within
    have inside := (sound.zone present).2.inside page inUse
    rw [zoneIndex_pageAddress inside]
    exact ⟨_, present, sound.contains_pageAddress present inside⟩
  · rcases sound.takeFreePage with ⟨_, nothing⟩ | ⟨_, _, _, taking, _⟩
    · rw [nothing]
      rfl
    · rw [taking]
      rfl
  · intro heap size bound capacity
    have addressable : size / pageSize * pageSize < 2 ^ 64 :=
      Nat.lt_of_le_of_lt (Nat.div_mul_le_self _ _) bound
    rcases sound.takeContiguousFreePages heap addressable with
      nothing | ⟨_, refused⟩ | ⟨_, _, _, taking, _⟩
    · rw [nothing]
      rfl
    · rw [capacity] at refused
      cases refused
    · rw [taking]
      rfl
  · intro paddr member
    obtain ⟨_, _, returned, _⟩ := holds.returnPage member
    rw [returned]
    rfl

/-- In every state of every run of a region the zone lists are consistent. -/
theorem reachable_consistent (reachable : Reachable lower upper state) : Consistent state := by
  obtain ⟨_, holds⟩ := reachable.holds
  exact holds.consistent

/-- A region of 1 MiB from which one page was taken. -/
theorem reachable_consistent_onePage : ∃ state paddr, state.taken = [paddr] ∧ Consistent state := by
  obtain ⟨region, initialized, lowerEq, upperEq, fresh⟩ :=
    initializeZones_spec (fun _ _ => ⟨0, 0⟩) 0 1048576
  rcases fresh.sound.takeFreePage with
    ⟨empty, _⟩ | ⟨result, index, page, taking, _⟩
  · have exhausted := fresh.sound.freePages_of_no_usable empty
    rw [fresh.freePages, fresh.pages, lowerEq, upperEq] at exhausted
    exact absurd exhausted (by decide)
  · refine ⟨⟨result, [region.pageAddress index page]⟩, _, rfl, reachable_consistent
        ⟨_, region, initialized, .single (.takeFreePage taking)⟩⟩

end Loan

end PhysicalRegion

end MixUpOS.Kernel.Memory
