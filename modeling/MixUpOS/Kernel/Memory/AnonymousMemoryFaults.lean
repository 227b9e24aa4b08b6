import Mathlib.Algebra.Order.BigOperators.Group.List
import MixUpOS.Kernel.Memory.AnonymousMemory

/-!
# What faults and clones do

Every operation on anonymous memory replaces one object, adds one, or does
both.  The effects stated here say which object that is, and what happens to
the shared sets and to the contents of pages.
-/

namespace MixUpOS.Kernel.Memory

open AK CommittedPhysicalPageSet AnonymousVMObject Option

theorem CommittedPhysicalPageSet.withoutOne_eq_some {set : CommittedPhysicalPageSet} :
    set.withoutOne = some rest ↔ set.pageCount = rest.pageCount + 1 := by
  obtain ⟨count⟩ := set
  obtain ⟨left⟩ := rest
  cases count with
  | zero | succ count => simp [withoutOne, verify]

theorem tryCommit_ok {pageCount : Nat} {set : CommittedPhysicalPageSet}
    (done : tryCommit pageCount committed = some (.ok set)) : set.pageCount = pageCount := by
  simp only [tryCommit, bind_eq_bind, bind_eq_some_iff] at done
  obtain ⟨_, _, same⟩ := done
  cases committed with
  | false => cases same
  | true =>
    cases same
    rfl

namespace AnonymousVMObject

variable {object after : AnonymousVMObject} {index : Nat}

theorem allocateCommittedPage_eq_some (taken : object.allocateCommittedPage = some after) :
    ∃ set rest, object.unusedCommittedPages = some set ∧ set.pageCount = rest.pageCount + 1 ∧
      after = { object with unusedCommittedPages := some rest } := by
  simp only [allocateCommittedPage, bind_eq_bind, bind_eq_some_iff] at taken
  obtain ⟨set, present, rest, one, same⟩ := taken
  cases same
  exact ⟨set, rest, present, withoutOne_eq_some.mp one, rfl⟩

/-- A fault on a slot without a page leaves the object alone, because there is
a page by now or no memory, or puts the new page into the slot, drawing on the
committed pages of the object exactly if the slot was seen to be lazy. -/
theorem handleZeroFault_effect
    (handled : object.handleZeroFault index atFault page granted mapped = some (response, after)) :
    after = object ∧ ((object.physicalPages[index]?).any PageSlot.isOwnPage = true ∨
          response = .outOfMemory) ∨
      ∃ slot source, object.physicalPages[index]? = some slot ∧ slot.isOwnPage = false ∧
        after = source.setSlot index (.page page) ∧
        (atFault = .lazyCommittedPage ∧ object.allocateCommittedPage = some source ∨
          atFault ≠ .lazyCommittedPage ∧ source = object) := by
  simp only [handleZeroFault, bind_eq_bind, bind_eq_some_iff] at handled
  obtain ⟨slot, present, handled⟩ := handled
  by_cases own : slot.isOwnPage = true
  · rw [if_pos own] at handled
    cases handled
    exact .inl ⟨rfl, .inl (by rw [present]; exact own)⟩
  · rw [if_neg own] at handled
    have empty : slot.isOwnPage = false := Bool.eq_false_iff.mpr own
    by_cases isLazy : atFault = .lazyCommittedPage
    · rw [if_pos isLazy] at handled
      obtain ⟨source, taken, same⟩ := bind_eq_some_iff.mp handled
      cases same
      exact .inr ⟨slot, source, present, empty, rfl, .inl ⟨isLazy, taken⟩⟩
    · rw [if_neg isLazy] at handled
      cases granted with
      | false =>
        cases handled
        exact .inl ⟨rfl, .inr rfl⟩
      | true =>
        cases handled
        exact .inr ⟨slot, object, present, empty, rfl, .inr ⟨isLazy, rfl⟩⟩

theorem ensureCowMap_ok (done : object.ensureCowMap granted = .ok after) :
    ∃ map, after = { object with cowMap := some map } ∧ (object.cowMap = some map ∨
        object.cowMap = none ∧ map = object.freshCowMap) := by
  cases present : object.cowMap with
  | some map =>
    simp only [ensureCowMap, present, Except.ok.injEq] at done
    refine ⟨map, ?_, .inl rfl⟩
    rw [← done, ← present]
  | none =>
    cases granted with
    | false => simp [ensureCowMap, present] at done
    | true =>
      simp only [ensureCowMap, present, if_true, Except.ok.injEq] at done
      exact ⟨_, done.symm, .inr ⟨rfl, rfl⟩⟩

theorem ensureOrResetCowMap_ok (done : object.ensureOrResetCowMap granted = .ok after) :
    after = { object with cowMap := some object.freshCowMap } := by
  cases present : object.cowMap with
  | some map =>
    simp only [ensureOrResetCowMap, present, Except.ok.injEq] at done
    exact done.symm
  | none =>
    simp only [ensureOrResetCowMap, present] at done
    obtain ⟨map, same, old | ⟨_, fresh⟩⟩ := ensureCowMap_ok done
    · simp [present] at old
    · rw [same, fresh]

section

variable (done : object.setShouldCow index cow granted = .ok after)

include done

theorem setShouldCow_ok :
    ∃ map, after = { object with cowMap := some (map.set index cow) } ∧ (object.cowMap = some map ∨
        object.cowMap = none ∧ map = object.freshCowMap) := by
  cases ensured : object.ensureCowMap granted with
  | error code =>
    rw [setShouldCow, ensured] at done
    cases done
  | ok middle =>
    rw [setShouldCow, ensured] at done
    obtain ⟨map, rfl, origin⟩ := ensureCowMap_ok ensured
    cases done
    exact ⟨map, rfl, origin⟩

theorem setShouldCow_frame : after.physicalPages = object.physicalPages ∧
      after.sharedCommittedCowPages = object.sharedCommittedCowPages ∧
      after.isVolatile = object.isVolatile := by
  obtain ⟨map, rfl, _⟩ := setShouldCow_ok done
  exact ⟨rfl, rfl, rfl⟩

theorem setShouldCow_cowBit :
    ∀ other, other ≠ index → object.cowBit other = true → after.cowBit other = true := by
  intro other differ set
  obtain ⟨map, rfl, present | ⟨none, _⟩⟩ := setShouldCow_ok done
  · simp only [cowBit, present] at set
    simpa [cowBit, Ne.symm differ] using set
  · simp [cowBit, none] at set

end

theorem setShouldCow_of_cowMap (present : object.cowMap = some map) :
    object.setShouldCow index cow granted =
      .ok { object with cowMap := some (map.set index cow) } := by
  obtain ⟨pages, unused, _, shared, purgeable, isVolatile, purged⟩ := object
  cases present
  rfl

theorem cowMap_of_shouldCow {id : Nat} (place : object.physicalPages[index]? = some (.page id))
    (shouldCow : object.shouldCow index false = true) : ∃ map, object.cowMap = some map := by
  cases mapped : object.cowMap with
  | some map => exact ⟨map, rfl⟩
  | none => simp [AnonymousVMObject.shouldCow, place, cowBit, mapped] at shouldCow

end AnonymousVMObject

namespace AnonymousMemory

variable {γ : Type} {zero : γ} {memory : AnonymousMemory γ}
variable {object index : Nat} {answers : FaultAnswers}
theorem must_eq_some : must result = some value ↔ result = .ok value := by
  cases result with
  | error code | ok found => simp [must]

theorem takeFromPool_eq_some {cowPools remaining : List CommittedPhysicalPageSet}
    (taken : takeFromPool cowPools pool = some remaining) :
    ∃ set rest, cowPools[pool]? = some set ∧ set.pageCount = rest.pageCount + 1 ∧
      remaining = cowPools.set pool rest := by
  simp only [takeFromPool, bind_eq_bind, bind_eq_some_iff] at taken
  obtain ⟨set, present, rest, one, same⟩ := taken
  cases same
  exact ⟨set, rest, present, withoutOne_eq_some.mp one, rfl⟩

theorem dropEmptyPool_eq (cowPools : List CommittedPhysicalPageSet) (current : AnonymousVMObject) :
    ∃ shared, dropEmptyPool cowPools current =
      { current with sharedCommittedCowPages := shared } := by
  obtain ⟨pages, unused, map, shared, purgeable, isVolatile, purged⟩ := current
  cases shared with
  | none => exact ⟨none, rfl⟩
  | some pool =>
    by_cases empty : (cowPools[pool]?).all isEmpty = true
    · exact ⟨none, if_pos empty⟩
    · exact ⟨some pool, if_neg empty⟩

@[simp]
theorem dropEmptyPool_frame (cowPools : List CommittedPhysicalPageSet)
    (current : AnonymousVMObject) :
    (dropEmptyPool cowPools current).physicalPages = current.physicalPages ∧
      (dropEmptyPool cowPools current).isVolatile = current.isVolatile ∧
      (dropEmptyPool cowPools current).cowMap = current.cowMap := by
  obtain ⟨shared, same⟩ := dropEmptyPool_eq cowPools current
  rw [same]
  exact ⟨rfl, rfl, rfl⟩

theorem zeroFault_effect
    (handled : memory.zeroFault zero object index atFault answers = some (response, later)) :
    ∃ current after, memory.objects[object]? = some current ∧
      current.handleZeroFault index atFault answers.page answers.granted
        answers.mapped = some (response, after) ∧ later.objects = memory.objects.set object after ∧
      later.cowPools = memory.cowPools ∧
      (after = current ∧ later.contents = memory.contents ∨ after ≠ current ∧ later.contents =
          Function.update memory.contents answers.page zero) := by
  simp only [zeroFault, bind_eq_bind, bind_eq_some_iff] at handled
  obtain ⟨current, present, ⟨reply, after⟩, fault, handled⟩ := handled
  by_cases same : after = current
  · simp only [same, if_true] at handled
    cases handled
    subst same
    exact ⟨after, after, present, fault, rfl, rfl, .inl ⟨rfl, rfl⟩⟩
  · simp only [same, if_false] at handled
    cases handled
    exact ⟨current, after, present, fault, rfl, rfl, .inr ⟨same, rfl⟩⟩

theorem zeroFault_isSome (present : memory.objects[object]? = some current)
    (handled : ∃ result, current.handleZeroFault index atFault answers.page
      answers.granted answers.mapped = some result) :
    ∃ result, memory.zeroFault zero object index atFault answers = some result := by
  obtain ⟨⟨reply, after⟩, fault⟩ := handled
  by_cases same : after = current
  · exact ⟨_, by simp [zeroFault, present, fault, same]; rfl⟩
  · exact ⟨_, by simp [zeroFault, present, fault, same]; rfl⟩

/-- The ways in which a copy-on-write fault can end. -/
inductive CowFaulted (zero : γ) (memory : AnonymousMemory γ)
    (object index : Nat) (answers : FaultAnswers)
    (original : AnonymousVMObject) (slot : PageSlot) :
    PageFaultResponse → AnonymousMemory γ → Prop
  | crashed (isVolatile : original.isVolatile = true) :
      CowFaulted zero memory object index answers original slot .shouldCrash memory
  | refused (nonvolatile : original.isVolatile = false)
      (shared : memory.slotRefCount slot answers.held ≠ 1)
      (denied : drawCowPage memory.cowPools
        (dropEmptyPool memory.cowPools original) answers.granted = some (.error .ENOMEM)) :
      CowFaulted zero memory object index answers original slot .outOfMemory
        (memory.setObject object (dropEmptyPool memory.cowPools original))
  | adopted (nonvolatile : original.isVolatile = false)
      (unshared : memory.slotRefCount slot answers.held = 1)
      (writable : AnonymousVMObject)
      (cleared : (dropEmptyPool memory.cowPools original).setShouldCow index
        false answers.granted = .ok writable)
      (noPool : writable.sharedCommittedCowPages = none) :
      CowFaulted zero memory object index answers original slot
        .«continue» (memory.setObject object writable)
  | adoptedUncommitting (nonvolatile : original.isVolatile = false)
      (unshared : memory.slotRefCount slot answers.held = 1)
      (writable : AnonymousVMObject) (pool : Nat)
      (remaining : List CommittedPhysicalPageSet)
      (cleared : (dropEmptyPool memory.cowPools original).setShouldCow index
        false answers.granted = .ok writable)
      (hasPool : writable.sharedCommittedCowPages = some pool)
      (taken : takeFromPool memory.cowPools pool = some remaining) :
      CowFaulted zero memory object index answers original slot .«continue»
        { memory.setObject object (dropEmptyPool remaining writable) with
          cowPools := remaining }
  | copied (nonvolatile : original.isVolatile = false)
      (shared : memory.slotRefCount slot answers.held ≠ 1)
      (writable : AnonymousVMObject)
      (remaining : List CommittedPhysicalPageSet)
      (drawn : drawCowPage memory.cowPools
        (dropEmptyPool memory.cowPools original) answers.granted = some (.ok remaining))
      (cleared : ((dropEmptyPool memory.cowPools original).setSlot index
        (.page answers.page)).setShouldCow index false answers.granted = .ok writable) :
      CowFaulted zero memory object index answers original slot .«continue»
        { (memory.setObject object writable).setContent answers.page
            (memory.slotContent zero slot) with
          cowPools := remaining }

theorem drawCowPage_error {cowPools : List CommittedPhysicalPageSet}
    (denied : drawCowPage cowPools current granted = some (.error code)) :
    code = .ENOMEM ∧ current.sharedCommittedCowPages = none ∧ granted = false := by
  cases present : current.sharedCommittedCowPages with
  | some pool => simp [drawCowPage, present] at denied
  | none =>
    cases granted with
    | true => simp [drawCowPage, present] at denied
    | false =>
      simp only [drawCowPage, present, Bool.false_eq_true, if_false,
        some.injEq, Except.error.injEq] at denied
      exact ⟨denied.symm, rfl, rfl⟩

theorem handleCowFault_effect
    (handled : memory.handleCowFault zero object index answers = some (response, later)) :
    ∃ original slot, memory.objects[object]? = some original ∧
      original.physicalPages[index]? = some slot ∧
      CowFaulted zero memory object index answers original slot response later := by
  simp only [handleCowFault, bind_eq_bind, bind_eq_some_iff] at handled
  obtain ⟨original, present, slot, inside, handled⟩ := handled
  refine ⟨original, slot, present, inside, ?_⟩
  cases isVolatile : original.isVolatile with
  | true =>
    rw [if_pos isVolatile] at handled
    cases handled
    exact .crashed isVolatile
  | false =>
    rw [if_neg (by simp [isVolatile])] at handled
    split_ifs at handled with unshared
    · simp only [adoptPage, bind_eq_bind, bind_eq_some_iff, must_eq_some] at handled
      obtain ⟨writable, cleared, handled⟩ := handled
      cases pool : writable.sharedCommittedCowPages with
      | none =>
        rw [pool] at handled
        cases handled
        exact .adopted isVolatile unshared writable cleared pool
      | some pool' =>
        rw [pool] at handled
        obtain ⟨remaining, taken, same⟩ := bind_eq_some_iff.mp handled
        cases same
        exact .adoptedUncommitting isVolatile unshared writable pool' remaining cleared pool taken
    · simp only [copyPage, bind_eq_bind, bind_eq_some_iff] at handled
      obtain ⟨drawn, source, handled⟩ := handled
      cases drawn with
      | error code =>
        cases handled
        obtain ⟨rfl, _, _⟩ := drawCowPage_error source
        exact .refused isVolatile unshared source
      | ok remaining =>
        simp only [bind_eq_some_iff, must_eq_some] at handled
        obtain ⟨writable, cleared, same⟩ := handled
        cases same
        exact .copied isVolatile unshared writable remaining source cleared

section

variable {γ : Type} {zero : γ} {memory : AnonymousMemory γ}
variable {cowPools : List CommittedPhysicalPageSet}
theorem dropEmptyPool_of_none (noPool : original.sharedCommittedCowPages = none) :
    dropEmptyPool cowPools original = original := by
  simp [dropEmptyPool, noPool]

theorem dropEmptyPool_of_empty {set : CommittedPhysicalPageSet}
    (hasPool : original.sharedCommittedCowPages = some pool)
    (present : cowPools[pool]? = some set) (empty : set.pageCount = 0) :
    (dropEmptyPool cowPools original).sharedCommittedCowPages = none := by
  simp [dropEmptyPool, hasPool, present, isEmpty, empty]

theorem dropEmptyPool_of_filled {set : CommittedPhysicalPageSet}
    (hasPool : original.sharedCommittedCowPages = some pool)
    (present : cowPools[pool]? = some set) (filled : set.pageCount ≠ 0) :
    dropEmptyPool cowPools original = original := by
  simp [dropEmptyPool, hasPool, present, isEmpty, filled]

theorem dropEmptyPool_shared :
    (dropEmptyPool cowPools original).sharedCommittedCowPages = original.sharedCommittedCowPages ∨
      (dropEmptyPool cowPools original).sharedCommittedCowPages = none := by
  cases shared : original.sharedCommittedCowPages with
  | none => exact .inl (by rw [dropEmptyPool_of_none shared, shared])
  | some found =>
    by_cases empty : (cowPools[found]?).all isEmpty = true
    · exact .inr (by simp [dropEmptyPool, shared, empty])
    · exact .inl (by simp [dropEmptyPool, shared, empty])

theorem dropEmptyPool_filled
    (hasPool : (dropEmptyPool cowPools original).sharedCommittedCowPages = some pool) :
    ∃ remaining, takeFromPool cowPools pool = some remaining := by
  cases shared : original.sharedCommittedCowPages with
  | none => simp [dropEmptyPool, shared] at hasPool
  | some found =>
    cases present : cowPools[found]? with
    | none => simp [dropEmptyPool, shared, present] at hasPool
    | some set =>
      by_cases empty : set.pageCount = 0
      · rw [dropEmptyPool_of_empty shared present empty] at hasPool
        cases hasPool
      rw [dropEmptyPool_of_filled shared present empty, shared] at hasPool
      cases hasPool
      have one : set.withoutOne = some ⟨set.pageCount - 1⟩ := by
        apply withoutOne_eq_some.mpr
        dsimp only
        omega
      exact ⟨_, by simp [takeFromPool, present, one]; rfl⟩

theorem drawCowPage_ok (drawn : drawCowPage cowPools current granted = some (.ok remaining)) :
    (∃ pool, current.sharedCommittedCowPages = some pool ∧
        takeFromPool cowPools pool = some remaining) ∨
      current.sharedCommittedCowPages = none ∧ granted = true ∧ remaining = cowPools := by
  cases shared : current.sharedCommittedCowPages with
  | some pool =>
    simp only [drawCowPage, shared, map_eq_some_iff] at drawn
    obtain ⟨found, taken, same⟩ := drawn
    cases same
    exact .inl ⟨pool, rfl, taken⟩
  | none =>
    cases granted with
    | false => simp [drawCowPage, shared] at drawn
    | true =>
      simp only [drawCowPage, shared, if_true, some.injEq, Except.ok.injEq] at drawn
      exact .inr ⟨rfl, rfl, drawn.symm⟩

section

variable {index : Nat} {map : List Bool}

theorem adoptPage_isSome (granted : Bool)
    (mapped : (dropEmptyPool memory.cowPools original).cowMap = some map) :
    ∃ result, memory.adoptPage object index
      (dropEmptyPool memory.cowPools original) granted = some result := by
  simp only [adoptPage, must, some_bind, setShouldCow_of_cowMap mapped]
  cases hasPool : (dropEmptyPool memory.cowPools original).sharedCommittedCowPages with
  | none => exact ⟨_, rfl⟩
  | some pool =>
    obtain ⟨remaining, taken⟩ := dropEmptyPool_filled hasPool
    simp only [taken]
    exact ⟨_, rfl⟩

theorem copyPage_isSome (answers : FaultAnswers)
    (mapped : (dropEmptyPool memory.cowPools original).cowMap = some map) :
    ∃ result, memory.copyPage zero object index
      (dropEmptyPool memory.cowPools original) slot answers = some result := by
  have copiedMap : ((dropEmptyPool memory.cowPools original).setSlot
      index (.page answers.page)).cowMap = some map := mapped
  simp only [copyPage, must, some_bind, setShouldCow_of_cowMap copiedMap]
  cases hasPool : (dropEmptyPool memory.cowPools original).sharedCommittedCowPages with
  | some pool =>
    obtain ⟨remaining, taken⟩ := dropEmptyPool_filled hasPool
    simp only [drawCowPage, hasPool, taken]
    exact ⟨_, rfl⟩
  | none =>
    simp only [drawCowPage, hasPool]
    cases answers.granted with
    | false | true => exact ⟨_, rfl⟩

theorem handleCowFault_isSome (answers : FaultAnswers)
    (present : memory.objects[object]? = some original)
    (place : original.physicalPages[index]? = some slot) (mapped : original.cowMap = some map) :
    ∃ result, memory.handleCowFault zero object index answers = some result := by
  have droppedMap := (dropEmptyPool_frame memory.cowPools original).2.2.trans mapped
  simp only [handleCowFault, present, place, some_bind]
  split
  · exact ⟨_, rfl⟩
  · split
    · exact adoptPage_isSome answers.granted droppedMap
    · exact copyPage_isSome answers droppedMap

end

end

/-- The clone that shares the pages of its parent. -/
def sharingClone (parent : AnonymousVMObject) (pool : Nat) : AnonymousVMObject :=
  let clone := { withSharedCow parent pool with
    cowMap := some parent.freshCowMap }
  if hasUnusedCommittedPages parent then dropLazyPages clone else clone

/-- The parent after it was cloned. -/
def sharingParent (parent : AnonymousVMObject) (pool : Nat) : AnonymousVMObject := { parent with
    cowMap := some parent.freshCowMap
    sharedCommittedCowPages := some pool }

/-- The memory after a clone that shares pages, with the set committed. -/
def afterSharing (memory : AnonymousMemory γ) (object : Nat)
    (parent : AnonymousVMObject) (set : CommittedPhysicalPageSet) : AnonymousMemory γ where
  objects := memory.objects.set object (sharingParent parent memory.cowPools.length) ++
      [sharingClone parent memory.cowPools.length]
  cowPools := memory.cowPools ++ [set]
  contents := memory.contents

/-- The ways in which a clone can succeed. -/
inductive Cloned (memory : AnonymousMemory γ) (object : Nat)
    (parent : AnonymousVMObject) : AnonymousMemory γ → Prop
  | prePurged (isVolatile : parent.isVolatile = true) :
      Cloned memory object parent (memory.addObject { ofSlots (List.replicate
            parent.physicalPages.length .sharedZeroPage) none with
          isPurgeable := true
          isVolatile := true
          wasPurged := true })
  | unwritten (noPages : parent.physicalPages.countP PageSlot.isOwnPage = 0) :
      Cloned memory object parent (memory.addObject (ofSlots (List.replicate
          parent.physicalPages.length .sharedZeroPage) none))
  | sharing (settled : (parent.isPurgeable && parent.isVolatile) = false)
      (pages : parent.physicalPages.countP PageSlot.isOwnPage ≠ 0)
      (set : CommittedPhysicalPageSet)
      (reserved : set.pageCount = parent.physicalPages.countP PageSlot.isOwnPage) :
      Cloned memory object parent (memory.afterSharing object parent set)

theorem ceilDiv_pageSize (pageCount : Nat) :
    ceilDiv (pageCount * pageSize) pageSize = pageCount := by
  simp [ceilDiv, pageSize]

theorem tryCreateWithSize_none {pageCount : Nat}
    (done : tryCreateWithSize (pageCount * pageSize) .none
      committed granted pages = some (.ok created)) :
    created = ofSlots (List.replicate pageCount .sharedZeroPage) none := by
  cases granted with
  | false => cases done
  | true =>
    cases done
    rw [ceilDiv_pageSize]

theorem tryClone_effect {committed : Bool}
    (done : memory.tryClone object committed granted = some (.ok later)) :
    ∃ parent, memory.objects[object]? = some parent ∧ Cloned memory object parent later := by
  simp only [tryClone, bind_eq_bind, bind_eq_some_iff] at done
  obtain ⟨parent, present, done⟩ := done
  refine ⟨parent, present, ?_⟩
  cases gone : parent.isPurgeable && parent.isVolatile with
  | true =>
    rw [if_pos gone] at done
    obtain ⟨result, purgeable, same⟩ := bind_eq_some_iff.mp done
    obtain ⟨plain, created, renamed⟩ := bind_eq_some_iff.mp purgeable
    cases plain with
    | error code =>
      cases renamed
      cases same
    | ok clone =>
      cases renamed
      cases same
      rw [tryCreateWithSize_none created]
      exact .prePurged (Bool.and_eq_true_iff.mp gone).2
  | false =>
    rw [if_neg (by simp [gone])] at done
    split_ifs at done with noPages
    · obtain ⟨result, created, same⟩ := bind_eq_some_iff.mp done
      cases result with
      | error code => cases same
      | ok clone =>
        cases same
        rw [tryCreateWithSize_none created]
        exact .unwritten noPages
    · obtain ⟨commitment, reserved, same⟩ := bind_eq_some_iff.mp done
      cases commitment with
      | error code => cases same
      | ok set =>
        have shared := some.inj same
        have isLater : later = memory.afterSharing object parent set := by
          cases granted with
          | false => cases shared
          | true =>
            cases reset : parent.ensureOrResetCowMap true with
            | error code =>
              simp only [cloneSharedCow, reset] at shared
              cases shared
            | ok after =>
              simp only [cloneSharedCow, reset] at shared
              cases shared
              rw [ensureOrResetCowMap_ok reset]
              rfl
        rw [isLater]
        exact .sharing gone noPages set (tryCommit_ok reserved)

end AnonymousMemory

end MixUpOS.Kernel.Memory
