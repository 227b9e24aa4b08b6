import MixUpOS.Kernel.Memory.AnonymousMemoryFaults

/-!
# The commit guarantee

Every slot that holds the lazy committed page is backed by a page of the set
that its object did not use yet.  A fault looks at the slot before it takes
the lock of the object, so a run keeps the faults that were looked at and not
handled yet, and other operations may come between the two.
-/

namespace MixUpOS.Kernel.Memory

open AnonymousVMObject AnonymousMemory

namespace AnonymousVMObject

/-- The number of slots that hold the lazy committed page. -/
def lazyPages (object : AnonymousVMObject) : Nat := object.physicalPages.count .lazyCommittedPage

/-- The number of pages left in `m_unused_committed_pages`. -/
def unusedPages (object : AnonymousVMObject) : Nat :=
  match object.unusedCommittedPages with
  | none => 0
  | some set => set.pageCount

structure Committed (object : AnonymousVMObject) : Prop where
  covered : object.lazyPages ≤ object.unusedPages
  settled : object.isVolatile = true → object.lazyPages = 0

/-- What an operation on an object keeps.  Slots become empty only while the
object is volatile. -/
structure Preserves (object after : AnonymousVMObject) : Prop where
  committed : object.Committed → after.Committed
  emptied : ∀ index : Nat, after.isVolatile = false →
    after.physicalPages[index]? = some .sharedZeroPage →
    object.isVolatile = false ∧ object.physicalPages[index]? = some .sharedZeroPage

section

variable {object after : AnonymousVMObject} {index : Nat}

theorem Committed.of_fewer (committed : object.Committed)
    (fewer : after.lazyPages ≤ object.lazyPages)
    (unused : after.unusedCommittedPages = object.unusedCommittedPages)
    (isVolatile : after.isVolatile = object.isVolatile) : after.Committed := by
  refine ⟨?_, ?_⟩
  · calc after.lazyPages ≤ object.lazyPages := fewer
      _ ≤ object.unusedPages := committed.covered
      _ = after.unusedPages := by rw [unusedPages, unusedPages, unused]
  · intro now
    rw [isVolatile] at now
    have none := committed.settled now
    omega

theorem Committed.of_none (none : object.lazyPages = 0) : object.Committed :=
  ⟨by rw [none]; exact Nat.zero_le _, fun _ => none⟩

theorem lazyPages_setSlot_le :
    (object.setSlot index (.page page)).lazyPages ≤ object.lazyPages := by
  by_cases inside : index < object.physicalPages.length
  · simp [lazyPages, setSlot, List.count_set inside]
  · simp [setSlot, List.set_eq_of_length_le (Nat.le_of_not_lt inside)]

theorem lazyPages_setSlot (isLazy : object.physicalPages[index]? = some .lazyCommittedPage) :
    (object.setSlot index (.page page)).lazyPages + 1 = object.lazyPages := by
  obtain ⟨inside, same⟩ := List.getElem?_eq_some_iff.mp isLazy
  have present : 0 < object.lazyPages := by
    apply List.count_pos_iff.mpr
    exact List.mem_of_getElem? isLazy
  have counted : (object.setSlot index (.page page)).lazyPages = object.lazyPages - 1 := by
    simp [lazyPages, setSlot, List.count_set inside, same]
  omega

theorem setSlot_zero {other : Nat}
    (empty : (object.setSlot index (.page page)).physicalPages[other]? = some .sharedZeroPage) :
    object.physicalPages[other]? = some .sharedZeroPage := by
  simp only [setSlot, List.getElem?_set] at empty
  by_cases same : index = other
  · rw [if_pos same] at empty
    by_cases inside : index < object.physicalPages.length
    · simp at empty
    · simp at empty
  · rwa [if_neg same] at empty

theorem Preserves.refl : object.Preserves object :=
  ⟨id, fun _ nonvolatile empty => ⟨nonvolatile, empty⟩⟩

section

variable (unused : after.unusedCommittedPages = object.unusedCommittedPages)
  (isVolatile : after.isVolatile = object.isVolatile)

include unused isVolatile

theorem Preserves.of_fewer (fewer : after.lazyPages ≤ object.lazyPages)
    (emptied : ∀ other : Nat, after.physicalPages[other]? = some .sharedZeroPage →
      object.physicalPages[other]? = some .sharedZeroPage) : object.Preserves after := by
  refine ⟨fun committed => committed.of_fewer fewer unused isVolatile, ?_⟩
  intro other nonvolatile empty
  rw [isVolatile] at nonvolatile
  exact ⟨nonvolatile, emptied other empty⟩

theorem Preserves.of_same (slots : after.physicalPages = object.physicalPages) :
    object.Preserves after :=
  .of_fewer unused isVolatile (by rw [lazyPages, lazyPages, slots]) (by simp [slots])

theorem Preserves.of_setSlot
    (slots : after.physicalPages = (object.setSlot index (.page page)).physicalPages) :
    object.Preserves after := by
  apply Preserves.of_fewer unused isVolatile
  · rw [lazyPages, slots]
    exact lazyPages_setSlot_le
  · intro other empty
    rw [slots] at empty
    exact setSlot_zero empty

end

end

section

variable {object after : AnonymousVMObject}

theorem unusedPages_allocateCommittedPage (taken : object.allocateCommittedPage = some after) :
    object.unusedPages = after.unusedPages + 1 ∧ after.physicalPages = object.physicalPages ∧
      after.isVolatile = object.isVolatile := by
  obtain ⟨set, rest, present, one, rfl⟩ := allocateCommittedPage_eq_some taken
  refine ⟨?_, rfl, rfl⟩
  simp only [unusedPages, present]
  exact one

theorem allocateCommittedPage_isSome :
    (∃ after, object.allocateCommittedPage = some after) ↔ 0 < object.unusedPages := by
  constructor
  · intro ⟨after, taken⟩
    have one := (unusedPages_allocateCommittedPage taken).1
    omega
  · intro some
    cases present : object.unusedCommittedPages with
    | none => simp [unusedPages, present] at some
    | some set =>
      simp only [unusedPages, present] at some
      have one : set.withoutOne = .some ⟨set.pageCount - 1⟩ := by
        apply CommittedPhysicalPageSet.withoutOne_eq_some.mpr
        dsimp only
        omega
      simp [allocateCommittedPage, present, one]

theorem allocateCommittedPage_of_lazy (committed : object.Committed)
    (isLazy : .lazyCommittedPage ∈ object.physicalPages) :
    ∃ after, object.allocateCommittedPage = some after := by
  apply allocateCommittedPage_isSome.mpr
  calc
    0 < object.lazyPages := List.count_pos_iff.mpr isLazy
    _ ≤ object.unusedPages := committed.covered

theorem handleZeroFault_isSome (inside : object.physicalPages[index]? = some slot)
    (drawable : atFault = .lazyCommittedPage → slot.isOwnPage = false →
      ∃ after, object.allocateCommittedPage = some after) (page : Nat) (granted mapped : Bool) :
    ∃ result, object.handleZeroFault index atFault page granted mapped = some result := by
  cases own : slot.isOwnPage with
  | true => exact ⟨_, by simp [handleZeroFault, inside, own]; rfl⟩
  | false =>
    by_cases isLazy : atFault = .lazyCommittedPage
    · obtain ⟨after, taken⟩ := drawable isLazy own
      exact ⟨_, by simp [handleZeroFault, inside, own, isLazy, taken]; rfl⟩
    · cases granted with
      | true | false => exact ⟨_, by simp [handleZeroFault, inside, own, isLazy]; rfl⟩

theorem handleZeroFault_preserves
    (steady : atFault = .lazyCommittedPage → object.isVolatile = false →
      object.physicalPages[index]? ≠ some .sharedZeroPage)
    (handled : object.handleZeroFault index atFault page granted mapped = some (response, after)) :
    object.Preserves after := by
  rcases handleZeroFault_effect handled with ⟨rfl, _⟩ |
    ⟨slot, source, present, noPage, rfl, ⟨isLazy, taken⟩ | ⟨_, rfl⟩⟩
  · exact .refl
  · obtain ⟨one, slots, same⟩ := unusedPages_allocateCommittedPage taken
    have slotsSet : (source.setSlot index (.page page)).physicalPages =
        (object.setSlot index (.page page)).physicalPages := by
      simp only [setSlot, slots]
    have lazySet : (source.setSlot index (.page page)).lazyPages =
        (object.setSlot index (.page page)).lazyPages := by
      rw [lazyPages, lazyPages, slotsSet]
    refine ⟨?_, ?_⟩
    · intro committed
      cases isVolatile : object.isVolatile with
      | true =>
        have none := committed.settled isVolatile
        have fewer : (object.setSlot index (.page page)).lazyPages ≤
          object.lazyPages := lazyPages_setSlot_le
        exact ⟨by omega, fun _ => by omega⟩
      | false =>
        have slotLazy : slot = .lazyCommittedPage := by
          cases slot with
          | sharedZeroPage => exact absurd present (steady isLazy isVolatile)
          | lazyCommittedPage => rfl
          | page id => cases noPage
        subst slotLazy
        have removed : (object.setSlot index (.page page)).lazyPages + 1 =
          object.lazyPages := lazyPages_setSlot present
        have covered := committed.covered
        refine ⟨?_, ?_⟩
        · change (source.setSlot index (.page page)).lazyPages ≤ source.unusedPages
          omega
        · intro now
          change source.isVolatile = true at now
          rw [same, isVolatile] at now
          cases now
    · intro other nonvolatile empty
      change source.isVolatile = false at nonvolatile
      rw [same] at nonvolatile
      rw [slotsSet] at empty
      exact ⟨nonvolatile, setSlot_zero empty⟩
  · exact .of_setSlot rfl rfl rfl

theorem purge_preserves : object.Preserves object.purge.1 := by
  by_cases kept : (!object.isPurgeable || !object.isVolatile) = true
  · rw [purge, if_pos kept]
    exact .refl
  rw [purge, if_neg kept]
  have isVolatile : object.isVolatile = true := by
    simp only [Bool.or_eq_true, Bool.not_eq_true', not_or, Bool.not_eq_false] at kept
    exact kept.2
  refine ⟨?_, ?_⟩
  · intro _
    apply Committed.of_none
    simp [lazyPages, List.count_eq_zero]
  · intro index nonvolatile
    rw [show object.isVolatile = false from nonvolatile] at isVolatile
    cases isVolatile

theorem count_lazy_of_dropped (slots : List PageSlot) :
    (slots.map fun slot => if slot = .lazyCommittedPage then
      PageSlot.sharedZeroPage else slot).count .lazyCommittedPage = 0 := by
  apply List.count_eq_zero.mpr
  intro member
  obtain ⟨slot, _, same⟩ := List.mem_map.mp member
  by_cases isLazy : slot = .lazyCommittedPage <;> simp [isLazy] at same

theorem count_lazy_of_empty (pageCount : Nat) :
    (List.replicate pageCount PageSlot.sharedZeroPage).count .lazyCommittedPage = 0 := by
  simp [List.count_replicate]

theorem makeVolatile_preserves : object.Preserves object.makeVolatile := by
  refine ⟨?_, ?_⟩
  · intro _
    apply Committed.of_none
    exact count_lazy_of_dropped object.physicalPages
  · intro index nonvolatile
    cases nonvolatile

theorem count_lazy_of_filled (slots : List PageSlot) :
    (slots.map fun slot => if slot = .sharedZeroPage then
      PageSlot.lazyCommittedPage else slot).count .lazyCommittedPage =
      slots.count .sharedZeroPage + slots.count .lazyCommittedPage := by
  induction slots with
  | nil => rfl
  | cons slot rest ih =>
    cases slot with
    | sharedZeroPage | lazyCommittedPage => simp [ih]; omega
    | page id => simp [ih]

theorem makeNonvolatile_preserves (wasVolatile : object.isVolatile = true)
    (done : object.makeNonvolatile committed = some (.ok after)) : object.Preserves after := by
  by_cases full : object.physicalPages.count .sharedZeroPage = 0
  · simp only [makeNonvolatile, if_pos full] at done
    cases done
    refine ⟨?_, ?_⟩
    · intro held
      refine ⟨held.covered, ?_⟩
      intro now
      cases now
    · intro index _ empty
      exact absurd (List.mem_of_getElem? empty) (List.count_eq_zero.mp full)
  · simp only [makeNonvolatile, if_neg full] at done
    obtain ⟨result, reserved, same⟩ := Option.bind_eq_some_iff.mp done
    cases result with
    | error code => cases same
    | ok set =>
      have count := tryCommit_ok reserved
      cases same
      refine ⟨?_, ?_⟩
      · intro held
        have none : object.physicalPages.count .lazyCommittedPage = 0 := held.settled wasVolatile
        refine ⟨?_, ?_⟩
        · simp only [lazyPages, unusedPages]
          rw [count_lazy_of_filled, count, none]
          exact Nat.le_refl _
        · intro now
          cases now
      · intro index _ empty
        obtain ⟨slot, _, same⟩ := List.mem_map.mp (List.mem_of_getElem? empty)
        by_cases isZero : slot = .sharedZeroPage <;> simp [isZero] at same

theorem setVolatile_preserves {isVolatile wasPurged : Bool}
    (done : object.setVolatile isVolatile committed = some (.ok after, wasPurged)) :
    object.Preserves after := by
  simp only [setVolatile, Option.bind_eq_bind, Option.bind_eq_some_iff] at done
  obtain ⟨_, _, done⟩ := done
  by_cases same : object.isVolatile = isVolatile
  · rw [if_pos same] at done
    cases done
    exact .refl
  · rw [if_neg same] at done
    cases isVolatile with
    | true =>
      cases done
      exact makeVolatile_preserves
    | false =>
      obtain ⟨result, made, renamed⟩ := Option.bind_eq_some_iff.mp done
      cases renamed
      apply makeNonvolatile_preserves _ made
      simpa using same

end

section

variable {size : Nat}
theorem construct_committed {pageCount : Nat} {set : Option CommittedPhysicalPageSet}
    (reserved : commitForStrategy pageCount strategy committed = some (.ok set))
    (constructed : construct pageCount strategy set pages = some object) : object.Committed := by
  cases strategy with
  | none =>
    cases constructed
    apply Committed.of_none
    exact count_lazy_of_empty pageCount
  | reserve =>
    obtain ⟨result, commit, renamed⟩ := Option.map_eq_some_iff.mp reserved
    cases result with
    | error code => cases renamed
    | ok pool =>
      cases renamed
      cases constructed
      refine ⟨?_, ?_⟩
      · simp [lazyPages, unusedPages, ofSlots, tryCommit_ok commit]
      · intro isVolatile
        cases isVolatile
  | allocateNow =>
    obtain ⟨pool, _, rest⟩ := Option.bind_eq_some_iff.mp constructed
    obtain ⟨left, _, same⟩ := Option.bind_eq_some_iff.mp rest
    cases same
    apply Committed.of_none
    simp [lazyPages, ofSlots, List.count_eq_zero]

theorem tryCreateWithSize_committed
    (created : tryCreateWithSize size strategy committed granted pages = some (.ok object)) :
    object.Committed := by
  simp only [tryCreateWithSize, Option.bind_eq_bind, Option.bind_eq_some_iff] at created
  obtain ⟨commitment, reserved, built⟩ := created
  cases commitment with
  | error code => cases built
  | ok set =>
    cases granted with
    | false => cases built
    | true =>
      obtain ⟨found, constructed, same⟩ := Option.map_eq_some_iff.mp built
      cases same
      exact construct_committed reserved constructed

end

end AnonymousVMObject

namespace AnonymousMemory

section

variable {γ : Type} {memory later : AnonymousMemory γ} {after : AnonymousVMObject}
  {property : AnonymousVMObject → Prop} (all : ∀ current ∈ memory.objects, property current)

include all

theorem forall_mem_added (objects : later.objects = memory.objects ++ [after])
    (added : property after) : ∀ current ∈ later.objects, property current := by
  rw [objects, List.forall_mem_append, List.forall_mem_singleton]
  exact ⟨all, added⟩

theorem forall_mem_replaced (objects : later.objects = memory.objects.set object after)
    (replaced : property after) : ∀ current ∈ later.objects, property current := by
  intro current member
  rw [objects] at member
  rcases List.mem_or_eq_of_mem_set member with old | rfl
  · exact all current old
  · exact replaced

end

theorem unusedPages_eq_zero (unused : hasUnusedCommittedPages parent = false) :
    parent.unusedPages = 0 := by
  cases present : parent.unusedCommittedPages with
  | none => simp [unusedPages, present]
  | some set =>
    simp only [hasUnusedCommittedPages, present, CommittedPhysicalPageSet.isEmpty,
      Bool.not_eq_false', beq_iff_eq] at unused
    simp [unusedPages, present, unused]

theorem sharingClone_committed (committed : parent.Committed) :
    (sharingClone parent pool).Committed := by
  apply Committed.of_none
  cases unused : hasUnusedCommittedPages parent with
  | true =>
    simp only [sharingClone, unused, if_true]
    exact count_lazy_of_dropped parent.physicalPages
  | false =>
    have none := unusedPages_eq_zero unused
    have covered := committed.covered
    simp only [sharingClone, unused, Bool.false_eq_true, if_false]
    change parent.lazyPages = 0
    omega

section

variable {γ : Type} {zero : γ} {memory later : AnonymousMemory γ}
variable {index : Nat} {answers : FaultAnswers}
variable {response : PageFaultResponse}
variable {original : AnonymousVMObject} {slot : PageSlot}

/-- How a copy-on-write fault changes its object: the slot receives the new
page, or only the bit of a page that nobody else refers to is cleared, or
neither. -/
inductive CowReplaced (zero : γ) (memory : AnonymousMemory γ) (index : Nat)
    (answers : FaultAnswers) (original : AnonymousVMObject) (slot : PageSlot)
    (after : AnonymousVMObject) (later : AnonymousMemory γ) :
    PageFaultResponse → Prop
  | unchanged {response : PageFaultResponse} (stopped : response ≠ .«continue»)
      (slots : after.physicalPages = original.physicalPages)
      (cowMap : after.cowMap = original.cowMap)
      (contents : later.contents = memory.contents) :
      CowReplaced zero memory index answers original slot after later response
  | adopted (unshared : memory.slotRefCount slot answers.held = 1)
      (slots : after.physicalPages = original.physicalPages)
      (bits : ∀ other, other ≠ index → original.cowBit other = true → after.cowBit other = true)
      (contents : later.contents = memory.contents) :
      CowReplaced zero memory index answers original slot after later .«continue»
  | copied (slots : after.physicalPages =
        (original.setSlot index (.page answers.page)).physicalPages)
      (bits : ∀ other, other ≠ index → original.cowBit other = true → after.cowBit other = true)
      (contents : later.contents = Function.update memory.contents
        answers.page (memory.slotContent zero slot)) :
      CowReplaced zero memory index answers original slot after later .«continue»

theorem CowFaulted.replaced (present : memory.objects[object]? = some original)
    (faulted : CowFaulted zero memory object index answers original slot response later) :
    ∃ after, later.objects = memory.objects.set object after ∧ original.Preserves after ∧
      after.isVolatile = original.isVolatile ∧
      CowReplaced zero memory index answers original slot after later response := by
  obtain ⟨shared, dropped⟩ := dropEmptyPool_eq memory.cowPools original
  cases faulted with
  | crashed isVolatile =>
    refine ⟨original, ?_, .refl, rfl, .unchanged (by simp) rfl rfl rfl⟩
    obtain ⟨inside, rfl⟩ := List.getElem?_eq_some_iff.mp present
    exact (List.set_getElem_self inside).symm
  | refused _ _ _ =>
    refine ⟨_, rfl, ?_, ?_, .unchanged (by simp) ?_ ?_ rfl⟩
    · rw [dropped]
      exact .of_same rfl rfl rfl
    all_goals rw [dropped]
  | adopted _ unshared writable cleared _ =>
    rw [dropped] at cleared
    have bits := setShouldCow_cowBit cleared
    refine ⟨writable, rfl, ?_⟩
    obtain ⟨map, rfl, _⟩ := setShouldCow_ok cleared
    exact ⟨.of_same rfl rfl rfl, rfl, .adopted unshared rfl bits rfl⟩
  | adoptedUncommitting _ unshared writable pool remaining cleared _ _ =>
    rw [dropped] at cleared
    have bits := setShouldCow_cowBit cleared
    refine ⟨_, rfl, ?_⟩
    obtain ⟨map, rfl, _⟩ := setShouldCow_ok cleared
    obtain ⟨rest, same⟩ := dropEmptyPool_eq remaining _
    rw [same]
    exact ⟨.of_same rfl rfl rfl, rfl, .adopted unshared rfl bits rfl⟩
  | copied _ _ writable remaining _ cleared =>
    rw [dropped] at cleared
    have bits := setShouldCow_cowBit cleared
    refine ⟨writable, rfl, ?_⟩
    obtain ⟨map, rfl, _⟩ := setShouldCow_ok cleared
    exact ⟨.of_setSlot rfl rfl rfl, rfl, .copied rfl bits rfl⟩

end

end AnonymousMemory

/-- A fault on a slot without a page that was looked at, with the slot as it
was then. -/
structure LookedAt where
  object : Nat
  index : Nat
  slot : PageSlot
deriving DecidableEq, Repr

/-- The anonymous memory and the faults that are being handled. -/
structure FaultingMemory (γ : Type) where
  memory : AnonymousMemory γ
  looked : List LookedAt

namespace FaultingMemory

def boot {γ : Type} (contents : Nat → γ) : FaultingMemory γ := ⟨⟨[], [], contents⟩, []⟩

/-- One operation.  Failed requests leave the system as it is. -/
inductive Step {γ : Type} (zero : γ) : FaultingMemory γ → FaultingMemory γ → Prop
  | create {system : FaultingMemory γ} {size : Nat}
      {strategy : AllocationStrategy} {committed granted : Bool}
      {pages : Nat → Nat} {object : AnonymousVMObject}
      (created : tryCreateWithSize size strategy committed granted pages = some (.ok object)) :
      Step zero system { system with memory := system.memory.addObject object }
  | createPurgeable {system : FaultingMemory γ} {size : Nat}
      {strategy : AllocationStrategy} {committed granted : Bool}
      {pages : Nat → Nat} {object : AnonymousVMObject}
      (created : tryCreatePurgeableWithSize size strategy
        committed granted pages = some (.ok object)) :
      Step zero system { system with memory := system.memory.addObject object }
  | createWithPhysicalPages {system : FaultingMemory γ} {pages : List Nat}
      {granted : Bool} {object : AnonymousVMObject}
      (created : tryCreateWithPhysicalPages pages granted = .ok object) :
      Step zero system { system with memory := system.memory.addObject object }
  | look {system : FaultingMemory γ} {object index : Nat} {slot : PageSlot}
      (seen : system.memory.slotAt object index = some slot)
      (noPage : slot.isOwnPage = false) :
      Step zero system { system with looked := ⟨object, index, slot⟩ :: system.looked }
  | zeroFault {system : FaultingMemory γ} {fault : LookedAt}
      {answers : FaultAnswers} {response : PageFaultResponse}
      {later : AnonymousMemory γ} (looked : fault ∈ system.looked)
      (handled : system.memory.zeroFault zero fault.object fault.index
        fault.slot answers = some (response, later)) :
      Step zero system ⟨later, system.looked.erase fault⟩
  | cowFault {system : FaultingMemory γ} {object index : Nat}
      {answers : FaultAnswers} {response : PageFaultResponse}
      {later : AnonymousMemory γ}
      (handled : system.memory.handleCowFault zero object index answers = some (response, later)) :
      Step zero system { system with memory := later }
  | setVolatile {system : FaultingMemory γ} {object : Nat} {current after : AnonymousVMObject}
      {isVolatile committed wasPurged : Bool}
      (present : system.memory.objects[object]? = some current)
      (changed : current.setVolatile isVolatile committed = some (.ok after, wasPurged)) :
      Step zero system { system with memory := system.memory.setObject object after }
  | purge {system : FaultingMemory γ} {object : Nat} {current : AnonymousVMObject}
      (present : system.memory.objects[object]? = some current) :
      Step zero system { system with
        memory := system.memory.setObject object current.purge.1 }
  | tryClone {system : FaultingMemory γ} {object : Nat}
      {committed granted : Bool} {later : AnonymousMemory γ}
      (cloned : system.memory.tryClone object committed granted = some (.ok later)) :
      Step zero system { system with memory := later }

/-- All objects are backed, and a slot that was seen to be lazy is empty only
if its object is volatile by now. -/
structure Backed {γ : Type} (system : FaultingMemory γ) : Prop where
  committed : ∀ object ∈ system.memory.objects, object.Committed
  steady : ∀ fault ∈ system.looked, fault.slot = .lazyCommittedPage →
    ∃ current, system.memory.objects[fault.object]? = some current ∧ (current.isVolatile = false →
        current.physicalPages[fault.index]? ≠ some .sharedZeroPage)

section

variable {γ : Type} {system next : FaultingMemory γ}
variable {later : AnonymousMemory γ}
variable {after : AnonymousVMObject}

section

variable (backed : system.Backed)

include backed

theorem Backed.replaced (present : system.memory.objects[object]? = some current)
    (preserves : current.Preserves after)
    (objects : later.objects = system.memory.objects.set object after) :
    Backed { system with memory := later } := by
  obtain ⟨inside, _⟩ := List.getElem?_eq_some_iff.mp present
  refine ⟨forall_mem_replaced backed.committed objects
    (preserves.committed (backed.committed current (List.mem_of_getElem? present))), ?_⟩
  intro fault looked isLazy
  obtain ⟨found, foundPresent, steady⟩ := backed.steady fault looked isLazy
  by_cases same : object = fault.object
  · subst same
    rw [present] at foundPresent
    cases foundPresent
    refine ⟨after, by simp [objects, inside], ?_⟩
    intro nonvolatile empty
    obtain ⟨before, wasEmpty⟩ := preserves.emptied fault.index nonvolatile empty
    exact steady before wasEmpty
  · refine ⟨found, ?_, steady⟩
    rw [← foundPresent]
    simp [objects, same]

theorem Backed.added (committed : created.Committed)
    (objects : later.objects = system.memory.objects ++ [created]) :
    Backed { system with memory := later } := by
  refine ⟨forall_mem_added backed.committed objects committed, ?_⟩
  intro fault looked isLazy
  obtain ⟨found, present, steady⟩ := backed.steady fault looked isLazy
  obtain ⟨inside, _⟩ := List.getElem?_eq_some_iff.mp present
  refine ⟨found, ?_, steady⟩
  rw [← present]
  simp [objects, List.getElem?_append_left inside]

theorem Backed.cloned (present : system.memory.objects[object]? = some current)
    (cloned : Cloned system.memory object current later) :
    Backed { system with memory := later } := by
  have parentCommitted := backed.committed current (List.mem_of_getElem? present)
  cases cloned with
  | prePurged _ | unwritten _ =>
    apply backed.added _ rfl
    apply Committed.of_none
    exact count_lazy_of_empty _
  | sharing _ _ set _ =>
    let parent := sharingParent current system.memory.cowPools.length
    have preserves : current.Preserves parent := .of_same rfl rfl rfl
    have parentReplaced : Backed { system with
        memory := system.memory.setObject object parent } :=
      backed.replaced present preserves rfl
    exact parentReplaced.added (sharingClone_committed parentCommitted) rfl

theorem Backed.step (step : Step zero system next) : next.Backed := by
  cases step with
  | create created =>
    exact backed.added (tryCreateWithSize_committed created) rfl
  | createPurgeable created =>
    obtain ⟨result, plain, renamed⟩ := Option.bind_eq_some_iff.mp created
    cases result with
    | error code => cases renamed
    | ok found =>
      cases renamed
      have held := tryCreateWithSize_committed plain
      refine backed.added ?_ rfl
      exact ⟨held.covered, held.settled⟩
  | @createWithPhysicalPages given granted object created =>
    cases granted with
    | false => cases created
    | true =>
      cases created
      refine backed.added (.of_none ?_) rfl
      simp [AnonymousVMObject.lazyPages, AnonymousVMObject.ofSlots, List.count_eq_zero]
  | look seen noPage =>
    refine ⟨backed.committed, ?_⟩
    intro fault looked isLazy
    rcases List.mem_cons.mp looked with rfl | old
    · obtain ⟨current, present, slot⟩ := Option.bind_eq_some_iff.mp seen
      refine ⟨current, present, ?_⟩
      intro _ empty
      rw [slot] at empty
      cases empty
      cases isLazy
    · exact backed.steady fault old isLazy
  | zeroFault looked handled =>
    obtain ⟨current, after, present, fault, objects, _, _⟩ := zeroFault_effect handled
    have preserves : current.Preserves after := by
      apply handleZeroFault_preserves _ fault
      intro isLazy nonvolatile
      obtain ⟨found, foundPresent, steady⟩ := backed.steady _ looked isLazy
      rw [present] at foundPresent
      cases foundPresent
      exact steady nonvolatile
    have replaced := backed.replaced present preserves objects
    refine ⟨replaced.committed, ?_⟩
    intro other member isLazy
    exact replaced.steady other (List.mem_of_mem_erase member) isLazy
  | cowFault handled =>
    obtain ⟨original, slot, present, _, faulted⟩ := handleCowFault_effect handled
    obtain ⟨after, objects, preserves, _, _⟩ := faulted.replaced present
    exact backed.replaced present preserves objects
  | setVolatile present changed =>
    exact backed.replaced present (setVolatile_preserves changed) rfl
  | purge present => exact backed.replaced present purge_preserves rfl
  | tryClone cloned =>
    obtain ⟨parent, present, effect⟩ := tryClone_effect cloned
    exact backed.cloned present effect

end

theorem Backed.reachable {contents : Nat → γ}
    (reached : Relation.ReflTransGen (Step zero) (boot contents) system) : system.Backed := by
  induction reached with
  | refl =>
    refine ⟨?_, ?_⟩
    · intro object member
      cases member
    · intro fault member
      cases member
  | tail _ step backed => exact backed.step step

/-- A fault that was looked at can be handled unless its object was made
volatile in between. -/
theorem Backed.zeroFault_succeeds (backed : system.Backed) (looked : fault ∈ system.looked)
    (present : system.memory.objects[fault.object]? = some current)
    (inside : current.physicalPages[fault.index]? = some slot)
    (nonvolatile : current.isVolatile = false) (answers : FaultAnswers) :
    ∃ result, system.memory.zeroFault zero fault.object fault.index fault.slot
      answers = some result := by
  have drawable : fault.slot = .lazyCommittedPage → slot.isOwnPage = false →
      ∃ after, current.allocateCommittedPage = some after := by
    intro isLazy noPage
    apply allocateCommittedPage_of_lazy (backed.committed current (List.mem_of_getElem? present))
    obtain ⟨found, foundPresent, steady⟩ := backed.steady fault looked isLazy
    rw [present] at foundPresent
    cases foundPresent
    cases slot with
    | sharedZeroPage => exact absurd inside (steady nonvolatile)
    | lazyCommittedPage => exact List.mem_of_getElem? inside
    | page id => cases noPage
  exact zeroFault_isSome present (handleZeroFault_isSome inside drawable answers.page
      answers.granted answers.mapped)

end

section

variable {γ : Type}

/-- In every reachable state each object, original or clone, has at least as
many committed pages left as it has lazy slots.  A page can therefore be taken
for every lazy slot, and a fault that was looked at is handled unless its
object was made volatile in between. -/
theorem reachable_lazyPages_le_unusedPages (zero : γ) (contents : Nat → γ)
    {system : FaultingMemory γ}
    (reached : Relation.ReflTransGen (Step zero) (boot contents) system) :
    (∀ object ∈ system.memory.objects, object.lazyPages ≤ object.unusedPages ∧
        (.lazyCommittedPage ∈ object.physicalPages →
          ∃ after, object.allocateCommittedPage = some after)) ∧
    ∀ fault ∈ system.looked, ∀ current slot, system.memory.objects[fault.object]? = some current →
      current.physicalPages[fault.index]? = some slot → current.isVolatile = false → ∀ answers,
      ∃ result, system.memory.zeroFault zero fault.object fault.index
        fault.slot answers = some result := by
  have backed := Backed.reachable reached
  refine ⟨?_, ?_⟩
  · intro object member
    have committed := backed.committed object member
    refine ⟨committed.covered, ?_⟩
    exact AnonymousVMObject.allocateCommittedPage_of_lazy committed
  · intro fault looked current slot present inside nonvolatile answers
    exact backed.zeroFault_succeeds looked present inside nonvolatile answers

/-- Two reserved pages of which one was written, and a clone. -/
def forkedObjects : List AnonymousVMObject :=
  [{ ofSlots [.page 7, .lazyCommittedPage] (some ⟨1⟩) with
      cowMap := some [true, false]
      sharedCommittedCowPages := some 0 },
    { ofSlots [.page 7, .sharedZeroPage] none with
      cowMap := some [true, false]
      sharedCommittedCowPages := some 0 }]

theorem forkedObjects_reachable :
    ∃ system : FaultingMemory Nat, Relation.ReflTransGen (Step 0) (boot fun _ => 0) system ∧
        system.memory.objects = forkedObjects := by
  have created : tryCreateWithSize 8192 .reserve true true id = some (.ok (ofSlots
        [.lazyCommittedPage, .lazyCommittedPage] (some ⟨2⟩))) := rfl
  let answers : FaultAnswers := ⟨7, true, true, 1⟩
  let fault : LookedAt := ⟨0, 0, .lazyCommittedPage⟩
  let reserved : FaultingMemory Nat := ⟨⟨[ofSlots [.lazyCommittedPage, .lazyCommittedPage]
      (some ⟨2⟩)], [], fun _ => 0⟩, []⟩
  let looking : FaultingMemory Nat := { reserved with looked := [fault] }
  let written : FaultingMemory Nat := ⟨⟨[ofSlots [.page 7, .lazyCommittedPage] (some ⟨1⟩)],
      [], Function.update (fun _ => 0) 7 0⟩, []⟩
  let forked : FaultingMemory Nat :=
    { written with memory := ⟨forkedObjects, [⟨1⟩], written.memory.contents⟩ }
  have handled : looking.memory.zeroFault 0 fault.object fault.index
      fault.slot answers = some (.«continue», written.memory) := rfl
  have cloned : written.memory.tryClone 0 true true = some (.ok forked.memory) := rfl
  have looked : fault ∈ looking.looked := List.mem_singleton.mpr rfl
  have first : Step 0 (boot fun _ => 0) reserved := .create created
  have second : Step 0 reserved looking := .look rfl rfl
  have third : Step 0 looking written := .zeroFault looked handled
  have fourth : Step 0 written forked := .tryClone cloned
  exact ⟨forked, ((((Relation.ReflTransGen.refl.tail first).tail second).tail
    third).tail fourth), rfl⟩

/-- The parent keeps the page that its second slot needs. -/
theorem forkedObjects_lazyPages_le_unusedPages :
    ∃ system : FaultingMemory Nat, system.memory.objects = forkedObjects ∧
      ∀ object ∈ forkedObjects, object.lazyPages ≤ object.unusedPages := by
  obtain ⟨system, reached, objects⟩ := forkedObjects_reachable
  have backed := (reachable_lazyPages_le_unusedPages 0 _ reached).1
  refine ⟨system, objects, ?_⟩
  intro object member
  rw [← objects] at member
  exact (backed object member).1

end

end FaultingMemory

end MixUpOS.Kernel.Memory
