import MixUpOS.Kernel.Memory.AnonymousMemoryPlaces

/-!
# Pages reserved for copying

A clone commits one page for each page that it shares with its parent.  Each
copy-on-write fault of either party uses up one of these pages, also one on a
page that is not shared anymore because the other party copied it before.  The
reservation therefore suffices only as long as faults of the second kind do
not come while other pages are shared.
-/

namespace MixUpOS.Kernel.Memory

open Library AnonymousVMObject Finset

namespace AnonymousMemory

/-! ## Shared slots and reserved pages -/

section

variable {γ : Type}

/-- Whether a slot holds the same page in the parent and in the clone. -/
def isSharedSlot (memory : AnonymousMemory γ) (parent clone index : Nat) : Bool :=
  match memory.slotAt parent index with
  | some (.page id) => memory.slotAt clone index == some (.page id)
  | _ => false

def pageCount (memory : AnonymousMemory γ) (object : Nat) : Nat :=
  match memory.objects[object]? with
  | none => 0
  | some current => current.physicalPages.length

/-- The slots still sharing one page between parent and clone. -/
def sharedSlots (memory : AnonymousMemory γ) (parent clone : Nat) : Finset Nat :=
  (Finset.range (memory.pageCount parent)).filter fun index =>
    memory.isSharedSlot parent clone index

/-- The pages left in `m_shared_committed_cow_pages` of an object. -/
def reservedCowPages (memory : AnonymousMemory γ) (object : Nat) : Nat :=
  match memory.objects[object]? with
  | none => 0
  | some current =>
    match current.sharedCommittedCowPages with
    | none => 0
    | some pool =>
      match memory.cowPools[pool]? with
      | none => 0
      | some set => set.pageCount

/-- Parent and clone have a page reserved for each slot they share. -/
def Reserved (memory : AnonymousMemory γ) (parent clone : Nat) : Prop :=
  (memory.sharedSlots parent clone).card ≤ memory.reservedCowPages parent ∧
    (memory.sharedSlots parent clone).card ≤ memory.reservedCowPages clone

instance (memory : AnonymousMemory γ) (parent clone : Nat) :
    Decidable (memory.Reserved parent clone) :=
  inferInstanceAs (Decidable (_ ∧ _))

/-- A copy-on-write fault and what the rest of the kernel answers. -/
structure CowFault where
  object : Nat
  index : Nat
  answers : FaultAnswers
deriving DecidableEq, Repr

/-- The parent or the clone writes to a page that has to be copied.  The page
that is handed out is in no slot. -/
structure TakesFault (memory : AnonymousMemory γ) (parent clone : Nat)
    (fault : CowFault) : Prop where
  party : fault.object = parent ∨ fault.object = clone
  writes : ∃ current id, memory.objects[fault.object]? = some current ∧
    current.physicalPages[fault.index]? = some (.page id) ∧
    current.shouldCow fault.index false = true
  fresh : memory.refCount fault.answers.page = 0

/-- The fault is handled although no uncommitted page can be allocated, and
the pages that are still shared stay reserved. -/
def Sufficient (zero : γ) (memory : AnonymousMemory γ) (parent clone : Nat)
    (fault : CowFault) : Prop :=
  ∃ later, memory.handleCowFault zero fault.object fault.index
      { fault.answers with granted := false } = some (.«continue», later) ∧
    later.Reserved parent clone

/-- The fault is on a page that is still shared, or no page is shared anymore
and nothing but the slot refers to the page. -/
def Affordable (memory : AnonymousMemory γ) (parent clone : Nat) (fault : CowFault) : Prop :=
  fault.index ∈ memory.sharedSlots parent clone ∨
    memory.sharedSlots parent clone = ∅ ∧ fault.answers.held = 0

/-- A fault that can be afforded. -/
inductive AffordableStep (zero : γ) (parent clone : Nat) :
    AnonymousMemory γ → AnonymousMemory γ → Prop
  | fault {memory later : AnonymousMemory γ} {fault : CowFault} {response : PageFaultResponse}
      (takes : memory.TakesFault parent clone fault)
      (affordable : memory.Affordable parent clone fault)
      (handled : memory.handleCowFault zero fault.object fault.index
        fault.answers = some (response, later)) :
      AffordableStep zero parent clone memory later

/-- Pages of parent and clone are in no other object, and nowhere in another
slot. -/
def Placed (memory : AnonymousMemory γ) (parent clone : Nat) : Prop :=
  ∀ object index other otherIndex id : Nat, (object = parent ∨ object = clone) →
    memory.slotAt object index = some (.page id) →
    memory.slotAt other otherIndex = some (.page id) →
    (other = parent ∨ other = clone) ∧ otherIndex = index

/-- A party refers to the shared set, or no slot is shared anymore. -/
def HasPool (memory : AnonymousMemory γ) (parent clone pool object : Nat) : Prop :=
  ∃ current, memory.objects[object]? = some current ∧ current.isVolatile = false ∧
    (current.sharedCommittedCowPages = some pool ∨ current.sharedCommittedCowPages = none ∧
        memory.sharedSlots parent clone = ∅)

/-- The shared set holds exactly one page for each shared slot, and is given
up only when no slot is shared anymore. -/
structure Balanced (memory : AnonymousMemory γ) (parent clone : Nat) : Prop where
  apart : parent ≠ clone
  placed : memory.Placed parent clone
  pooled : ∃ pool, memory.cowPools[pool]? = some ⟨(memory.sharedSlots parent clone).card⟩ ∧
      ∀ object, object = parent ∨ object = clone → memory.HasPool parent clone pool object

end

section

variable {γ : Type} {memory later : AnonymousMemory γ}
variable {object index page : Nat}

/-- All slots are as before, but one holds the given page. -/
def Copies (memory later : AnonymousMemory γ) (object index page : Nat) : Prop :=
  ∀ other otherIndex, later.slotAt other otherIndex =
    if other = object ∧ otherIndex = index then some (.page page)
    else memory.slotAt other otherIndex

theorem mem_sharedSlots :
    index ∈ memory.sharedSlots parent clone ↔ ∃ id, memory.slotAt parent index = some (.page id) ∧
        memory.slotAt clone index = some (.page id) := by
  constructor
  · intro member
    have shared := (mem_filter.mp member).2
    cases slot : memory.slotAt parent index with
    | none => simp [isSharedSlot, slot] at shared
    | some found =>
      cases found with
      | sharedZeroPage | lazyCommittedPage => simp [isSharedSlot, slot] at shared
      | page id => exact ⟨id, rfl, by simpa [isSharedSlot, slot] using shared⟩
  · intro ⟨id, inParent, inClone⟩
    obtain ⟨current, present, slot⟩ := Option.bind_eq_some_iff.mp inParent
    obtain ⟨inside, _⟩ := List.getElem?_eq_some_iff.mp slot
    apply mem_filter.mpr
    refine ⟨mem_range.mpr ?_, ?_⟩
    · simpa [pageCount, present] using inside
    · simp [isSharedSlot, inParent, inClone]

theorem sharedSlots_congr
    (slots : ∀ other otherIndex, later.slotAt other otherIndex = memory.slotAt other otherIndex) :
    later.sharedSlots parent clone = memory.sharedSlots parent clone := by
  ext position
  rw [mem_sharedSlots, mem_sharedSlots, slots, slots]

theorem sharedSlots_copied (apart : parent ≠ clone) (party : object = parent ∨ object = clone)
    (fresh : memory.refCount page = 0) (slots : Copies memory later object index page) :
    later.sharedSlots parent clone = (memory.sharedSlots parent clone).erase index := by
  ext position
  rw [mem_erase, mem_sharedSlots, mem_sharedSlots, slots, slots]
  by_cases same : position = index
  · have unused : ∀ other, memory.slotAt other position ≠ some (.page page) :=
      fun other => slotAt_ne_of_refCount fresh
    rcases party with rfl | rfl
    · simp only [same, and_true, if_true, if_neg apart.symm, ne_eq,
        not_true_eq_false, false_and, iff_false]
      intro ⟨id, inParent, inClone⟩
      cases inParent
      rw [← same] at inClone
      exact unused clone inClone
    · simp only [same, and_true, if_true, if_neg apart, ne_eq,
        not_true_eq_false, false_and, iff_false]
      intro ⟨id, inParent, inClone⟩
      cases inClone
      rw [← same] at inParent
      exact unused parent inParent
  · simp [same]

theorem Placed.congr (placed : memory.Placed parent clone)
    (slots : ∀ other otherIndex, later.slotAt other otherIndex = memory.slotAt other otherIndex) :
    later.Placed parent clone := by
  intro first position other otherPosition id isParty place otherPlace
  rw [slots] at place otherPlace
  exact placed first position other otherPosition id isParty place otherPlace

theorem Placed.copied (placed : memory.Placed parent clone)
    (party : object = parent ∨ object = clone) (fresh : memory.refCount page = 0)
    (slots : Copies memory later object index page) : later.Placed parent clone := by
  intro first position other otherPosition id isParty place otherPlace
  rw [slots] at place otherPlace
  split_ifs at place with here
  · cases place
    by_cases there : other = object ∧ otherPosition = index
    · exact ⟨by rw [there.1]; exact party, by rw [there.2, here.2]⟩
    · rw [if_neg there] at otherPlace
      exact absurd otherPlace (slotAt_ne_of_refCount fresh)
  · split_ifs at otherPlace with there
    · cases otherPlace
      exact absurd place (slotAt_ne_of_refCount fresh)
    · exact placed first position other otherPosition id isParty place otherPlace

end

/-! ## Faults in a balanced memory -/

section

variable {γ : Type} {memory : AnonymousMemory γ}
theorem reservedCowPages_of_pool {set : CommittedPhysicalPageSet}
    (present : memory.objects[object]? = some current)
    (hasPool : current.sharedCommittedCowPages = some pool)
    (poolPresent : memory.cowPools[pool]? = some set) :
    memory.reservedCowPages object = set.pageCount := by
  simp [reservedCowPages, present, hasPool, poolPresent]

theorem Balanced.reserved (balanced : memory.Balanced parent clone) :
    memory.Reserved parent clone := by
  obtain ⟨pool, poolPresent, parties⟩ := balanced.pooled
  have each : ∀ object, object = parent ∨ object = clone → (memory.sharedSlots parent clone).card ≤
        memory.reservedCowPages object := by
    intro object party
    obtain ⟨current, present, _, hasPool | ⟨_, none⟩⟩ := parties object party
    · rw [reservedCowPages_of_pool present hasPool poolPresent]
    · rw [none]
      exact Nat.zero_le _
  exact ⟨each parent (.inl rfl), each clone (.inr rfl)⟩

end

section

variable {γ : Type} {memory later : AnonymousMemory γ}
theorem Balanced.refCount_unshared (balanced : memory.Balanced parent clone) {id : Nat}
    (party : object = parent ∨ object = clone)
    (place : memory.slotAt object index = some (.page id))
    (unshared : index ∉ memory.sharedSlots parent clone) : memory.refCount id = 1 := by
  apply refCount_eq_one place
  intro other otherIndex otherPlace
  obtain ⟨otherParty, rfl⟩ :=
    balanced.placed object index other otherIndex id party place otherPlace
  refine ⟨?_, rfl⟩
  rcases party with rfl | rfl
  · rcases otherParty with rfl | rfl
    · rfl
    · exact absurd (mem_sharedSlots.mpr ⟨id, place, otherPlace⟩) unshared
  · rcases otherParty with rfl | rfl
    · exact absurd (mem_sharedSlots.mpr ⟨id, otherPlace, place⟩) unshared
    · rfl

theorem HasPool.of_present (hasPool : memory.HasPool parent clone pool object)
    (present : memory.objects[object]? = some current) :
    current.isVolatile = false ∧ (current.sharedCommittedCowPages = some pool ∨
      current.sharedCommittedCowPages = none ∧ memory.sharedSlots parent clone = ∅) := by
  obtain ⟨found, foundPresent, properties⟩ := hasPool
  rw [present] at foundPresent
  cases foundPresent
  exact properties

theorem HasPool.of_other (hasPool : memory.HasPool parent clone pool other)
    (differ : other ≠ object) (objects : later.objects = memory.objects.set object after)
    (emptied : memory.sharedSlots parent clone = ∅ → later.sharedSlots parent clone = ∅) :
    later.HasPool parent clone pool other := by
  obtain ⟨current, present, nonvolatile, shared⟩ := hasPool
  refine ⟨current, ?_, nonvolatile, ?_⟩
  · rw [objects, List.getElem?_set_ne (Ne.symm differ)]
    exact present
  · rcases shared with some | ⟨none, unshared⟩
    · exact .inl some
    · exact .inr ⟨none, emptied unshared⟩

section

variable (balanced : memory.Balanced parent clone)

include balanced

/-- What is known of a fault in a balanced memory: the faulting object, its
page, the shared set, and how the fault ended. -/
theorem Balanced.fault_effect (takes : memory.TakesFault parent clone fault)
    (handled : memory.handleCowFault zero fault.object fault.index
      fault.answers = some (response, later)) :
    ∃ original id, memory.objects[fault.object]? = some original ∧
      original.physicalPages[fault.index]? = some (.page id) ∧ original.isVolatile = false ∧
      memory.slotAt fault.object fault.index = some (.page id) ∧
      CowFaulted zero memory fault.object fault.index fault.answers original
        (.page id) response later := by
  obtain ⟨original, slot, present, place, faulted⟩ := handleCowFault_effect handled
  obtain ⟨current, id, currentPresent, page, _⟩ := takes.writes
  rw [present] at currentPresent
  cases currentPresent
  rw [place] at page
  cases page
  obtain ⟨pool, _, parties⟩ := balanced.pooled
  refine ⟨original, id, present, place,
    ((parties fault.object takes.party).of_present present).1, ?_, faulted⟩
  rw [slotAt_of_present present, place]

/-- While slots are shared, the faulting object keeps the shared set. -/
theorem Balanced.pool_kept (occupied : memory.sharedSlots parent clone ≠ ∅)
    (party : object = parent ∨ object = clone) (present : memory.objects[object]? = some original) :
    ∃ pool, memory.cowPools[pool]? = some ⟨(memory.sharedSlots parent clone).card⟩ ∧
      original.sharedCommittedCowPages = some pool ∧
      dropEmptyPool memory.cowPools original = original ∧
      ∀ other, other = parent ∨ other = clone → memory.HasPool parent clone pool other := by
  obtain ⟨pool, poolPresent, parties⟩ := balanced.pooled
  obtain ⟨_, hasPool | ⟨_, none⟩⟩ := (parties object party).of_present present
  · refine ⟨pool, poolPresent, hasPool, ?_, parties⟩
    apply dropEmptyPool_of_filled hasPool poolPresent
    exact card_ne_zero.mpr (nonempty_iff_ne_empty.mpr occupied)
  · exact absurd none occupied

/-- Once no slot is shared, the faulting object gives the shared set up. -/
theorem Balanced.pool_dropped (unshared : memory.sharedSlots parent clone = ∅)
    (party : object = parent ∨ object = clone) (present : memory.objects[object]? = some original) :
    (dropEmptyPool memory.cowPools original).sharedCommittedCowPages = none := by
  obtain ⟨pool, poolPresent, parties⟩ := balanced.pooled
  obtain ⟨_, hasPool | ⟨noPool, _⟩⟩ := (parties object party).of_present present
  · apply dropEmptyPool_of_empty hasPool poolPresent
    rw [unshared]
    rfl
  · rw [dropEmptyPool_of_none noPool, noPool]

section

variable (takes : memory.TakesFault parent clone fault)

include takes

theorem Balanced.copied (shared : fault.index ∈ memory.sharedSlots parent clone)
    (present : memory.objects[fault.object]? = some original)
    (place : original.physicalPages[fault.index]? = some slot)
    (poolPresent : memory.cowPools[pool]? = some ⟨(memory.sharedSlots parent clone).card⟩)
    (parties : ∀ other, other = parent ∨ other = clone → memory.HasPool parent clone pool other)
    (taken : takeFromPool memory.cowPools pool = some later.cowPools)
    (objects : later.objects = memory.objects.set fault.object writable)
    (slots : writable.physicalPages = (original.setSlot fault.index
        (.page fault.answers.page)).physicalPages)
    (hasPool : writable.sharedCommittedCowPages = some pool)
    (nonvolatile : writable.isVolatile = false) : later.Balanced parent clone := by
  obtain ⟨set, rest, setPresent, one, pools⟩ := takeFromPool_eq_some taken
  rw [poolPresent] at setPresent
  cases setPresent
  obtain ⟨inside, _⟩ := List.getElem?_eq_some_iff.mp present
  obtain ⟨poolInside, _⟩ := List.getElem?_eq_some_iff.mp poolPresent
  have moved : Copies memory later fault.object fault.index fault.answers.page :=
    fun other otherIndex => slotAt_replaced_slot present place objects slots
  have erased := sharedSlots_copied balanced.apart takes.party takes.fresh moved
  refine ⟨balanced.apart, balanced.placed.copied takes.party takes.fresh moved, pool, ?_, ?_⟩
  · rw [erased, card_erase_of_mem shared]
    have left : rest = ⟨(memory.sharedSlots parent clone).card - 1⟩ := by
      obtain ⟨count⟩ := rest
      simp only [CommittedPhysicalPageSet.mk.injEq]
      dsimp only at one
      omega
    simp [pools, poolInside, left]
  · intro other party
    by_cases same : other = fault.object
    · refine ⟨writable, ?_, nonvolatile, .inl hasPool⟩
      simp [objects, same, inside]
    · apply (parties other party).of_other same objects
      intro unshared
      rw [erased, unshared]
      rfl

theorem Balanced.fault_shared (shared : fault.index ∈ memory.sharedSlots parent clone)
    (handled : memory.handleCowFault zero fault.object fault.index
      fault.answers = some (response, later)) :
    response = .«continue» ∧ later.Balanced parent clone := by
  obtain ⟨original, id, present, place, nonvolatile, placeAt, faulted⟩ :=
    balanced.fault_effect takes handled
  obtain ⟨pool, poolPresent, hasPool, kept, parties⟩ :=
    balanced.pool_kept (ne_empty_of_mem shared) takes.party present
  have twice : 2 ≤ memory.refCount id := by
    obtain ⟨found, inParent, inClone⟩ := mem_sharedSlots.mp shared
    have same : memory.slotAt fault.object fault.index = some (.page found) := by
      rcases takes.party with isParty | isParty <;> rwa [isParty]
    rw [placeAt] at same
    cases same
    apply two_le_refCount inParent inClone
    intro ⟨samePlace, _⟩
    exact balanced.apart samePlace
  have counted : memory.slotRefCount (.page id) fault.answers.held ≠ 1 := by
    simp only [slotRefCount]
    omega
  cases faulted with
  | crashed isVolatile => simp [nonvolatile] at isVolatile
  | refused _ _ denied =>
    rw [kept] at denied
    have noPool := (drawCowPage_error denied).2.1
    simp [hasPool] at noPool
  | adopted _ unshared | adoptedUncommitting _ unshared => exact absurd unshared counted
  | copied _ _ writable remaining drawn cleared =>
    rw [kept] at drawn cleared
    obtain ⟨slots, poolSame, volatileSame⟩ := setShouldCow_frame cleared
    obtain ⟨found, foundPool, taken⟩ | ⟨noPool, _⟩ := drawCowPage_ok drawn
    · rw [hasPool] at foundPool
      cases foundPool
      exact ⟨rfl, balanced.copied takes shared present place poolPresent
        parties taken rfl slots (poolSame.trans hasPool)
        (volatileSame.trans nonvolatile)⟩
    · simp [hasPool] at noPool

theorem Balanced.fault_unshared (unshared : memory.sharedSlots parent clone = ∅)
    (notHeld : fault.answers.held = 0)
    (handled : memory.handleCowFault zero fault.object fault.index
      fault.answers = some (response, later)) :
    response = .«continue» ∧ later.Balanced parent clone := by
  obtain ⟨original, id, present, place, nonvolatile, placeAt, faulted⟩ :=
    balanced.fault_effect takes handled
  have dropped := balanced.pool_dropped unshared takes.party present
  have counted : memory.slotRefCount (.page id) fault.answers.held = 1 := by
    rw [notHeld]
    apply balanced.refCount_unshared takes.party placeAt
    rw [unshared]
    exact notMem_empty fault.index
  cases faulted with
  | crashed isVolatile => simp [nonvolatile] at isVolatile
  | refused _ shared | copied _ shared => exact absurd counted shared
  | adopted _ _ writable cleared noPool =>
    refine ⟨rfl, ?_⟩
    obtain ⟨slots, _, volatileSame⟩ := setShouldCow_frame cleared
    rw [(dropEmptyPool_frame _ _).1] at slots
    rw [(dropEmptyPool_frame _ _).2.1] at volatileSame
    obtain ⟨pool, poolPresent, parties⟩ := balanced.pooled
    obtain ⟨inside, _⟩ := List.getElem?_eq_some_iff.mp present
    let after := memory.setObject fault.object writable
    have unmoved : ∀ other otherIndex, after.slotAt other otherIndex =
        memory.slotAt other otherIndex :=
      fun other otherIndex => slotAt_replaced_same present rfl slots
    have same : after.sharedSlots parent clone =
        memory.sharedSlots parent clone := sharedSlots_congr unmoved
    refine ⟨balanced.apart, balanced.placed.congr unmoved, pool, ?_, ?_⟩
    · rw [same]
      exact poolPresent
    intro other party
    by_cases here : other = fault.object
    · refine ⟨writable, ?_, ?_, .inr ⟨noPool, ?_⟩⟩
      · simp [setObject, here, inside]
      · rw [volatileSame]
        exact nonvolatile
      · rw [same]
        exact unshared
    · apply (parties other party).of_other here rfl
      intro empty
      rw [same]
      exact empty
  | adoptedUncommitting _ _ writable pool _ cleared hasPool =>
    have poolSame := (setShouldCow_frame cleared).2.1
    rw [dropped, hasPool] at poolSame
    cases poolSame

end

end

theorem not_reserved_of_taken {pool : Nat}
    (poolPresent : memory.cowPools[pool]? = some ⟨(memory.sharedSlots parent clone).card⟩)
    (taken : takeFromPool memory.cowPools pool = some remaining)
    (pools : later.cowPools = remaining)
    (same : later.sharedSlots parent clone = memory.sharedSlots parent clone)
    (party : object = parent ∨ object = clone) (present : later.objects[object]? = some after)
    (afterPool : after.sharedCommittedCowPages = some pool ∨ after.sharedCommittedCowPages = none) :
    ¬ later.Reserved parent clone := by
  intro reserved
  have enough : (later.sharedSlots parent clone).card ≤ later.reservedCowPages object := by
    rcases party with rfl | rfl
    · exact reserved.1
    · exact reserved.2
  rw [same] at enough
  obtain ⟨set, rest, setPresent, one, rfl⟩ := takeFromPool_eq_some taken
  rw [poolPresent] at setPresent
  cases setPresent
  obtain ⟨poolInside, _⟩ := List.getElem?_eq_some_iff.mp poolPresent
  dsimp only at one
  rcases afterPool with hasPool | noPool
  · have left : later.cowPools[pool]? = some rest := by
      simp [pools, poolInside]
    rw [reservedCowPages_of_pool present hasPool left] at enough
    omega
  · rw [show later.reservedCowPages object = 0 by
      simp [reservedCowPages, present, noPool]] at enough
    omega

section

variable (balanced : memory.Balanced parent clone)

include balanced

section

variable (takes : memory.TakesFault parent clone fault)

include takes

theorem Balanced.fault_held (none : memory.sharedSlots parent clone = ∅)
    (held : fault.answers.held ≠ 0) (denied : fault.answers.granted = false) :
    memory.handleCowFault zero fault.object fault.index fault.answers ≠
      some (.«continue», later) := by
  intro handled
  obtain ⟨original, id, present, place, nonvolatile, placeAt, faulted⟩ :=
    balanced.fault_effect takes handled
  have unshared : fault.index ∉ memory.sharedSlots parent clone := by
    rw [none]
    exact notMem_empty fault.index
  have one := balanced.refCount_unshared takes.party placeAt unshared
  have dropped := balanced.pool_dropped none takes.party present
  have counted : memory.slotRefCount (.page id) fault.answers.held ≠ 1 := by
    simp only [slotRefCount]
    omega
  cases faulted with
  | adopted _ only | adoptedUncommitting _ only => exact absurd only counted
  | copied _ _ writable remaining drawn =>
    rcases drawCowPage_ok drawn with ⟨pool, hasPool, _⟩ | ⟨_, granted, _⟩
    · simp [dropped] at hasPool
    · simp [denied] at granted

theorem Balanced.fault_taking (occupied : memory.sharedSlots parent clone ≠ ∅)
    (unshared : fault.index ∉ memory.sharedSlots parent clone)
    (handled : memory.handleCowFault zero fault.object fault.index
      fault.answers = some (.«continue», later)) : ¬ later.Reserved parent clone := by
  obtain ⟨original, id, present, place, nonvolatile, placeAt, faulted⟩ :=
    balanced.fault_effect takes handled
  obtain ⟨inside, _⟩ := List.getElem?_eq_some_iff.mp present
  obtain ⟨pool, poolPresent, hasPool, kept, _⟩ := balanced.pool_kept occupied takes.party present
  cases faulted with
  | adopted _ _ writable cleared noPool =>
    rw [kept] at cleared
    have poolSame := (setShouldCow_frame cleared).2.1
    simp [noPool, hasPool] at poolSame
  | adoptedUncommitting _ _ writable found remaining cleared foundPool taken =>
    rw [kept] at cleared
    obtain ⟨slots, poolSame, _⟩ := setShouldCow_frame cleared
    rw [poolSame, hasPool] at foundPool
    cases foundPool
    let after : AnonymousMemory γ :=
      { memory.setObject fault.object (dropEmptyPool remaining writable) with
        cowPools := remaining }
    have unmoved : ∀ other otherIndex, after.slotAt other otherIndex =
        memory.slotAt other otherIndex := by
      intro other otherIndex
      apply slotAt_replaced_same present rfl
      rw [(dropEmptyPool_frame _ _).1, slots]
    have afterPresent : after.objects[fault.object]? = some (dropEmptyPool remaining writable) :=
      List.getElem?_set_self inside
    apply not_reserved_of_taken poolPresent taken rfl
      (sharedSlots_congr unmoved) takes.party afterPresent
    rw [← poolSame.trans hasPool]
    exact dropEmptyPool_shared
  | copied _ _ writable remaining drawn cleared =>
    rw [kept] at drawn cleared
    obtain ⟨slots, poolSame, _⟩ := setShouldCow_frame cleared
    obtain ⟨found, foundPool, taken⟩ | ⟨noPool, _⟩ := drawCowPage_ok drawn
    · rw [hasPool] at foundPool
      cases foundPool
      let after : AnonymousMemory γ := { (memory.setObject fault.object writable).setContent
            fault.answers.page (memory.slotContent zero (.page id)) with
          cowPools := remaining }
      have moved : Copies memory after fault.object fault.index fault.answers.page :=
        fun other otherIndex => slotAt_replaced_slot present place rfl slots
      have same : after.sharedSlots parent clone = memory.sharedSlots parent clone := by
        rw [sharedSlots_copied balanced.apart takes.party takes.fresh
          moved, erase_eq_of_notMem unshared]
      have afterPresent : after.objects[fault.object]? = some writable :=
        List.getElem?_set_self inside
      exact not_reserved_of_taken poolPresent taken rfl same takes.party
        afterPresent (.inl (poolSame.trans hasPool))
    · simp [hasPool] at noPool

/-- In a balanced memory a fault makes do with the reserved pages exactly if
it can be afforded. -/
theorem Balanced.sufficient_iff :
    memory.Sufficient zero parent clone fault ↔ memory.Affordable parent clone fault := by
  let denied : CowFault := { fault with answers := { fault.answers with granted := false } }
  have takesDenied : memory.TakesFault parent clone denied :=
    ⟨takes.party, takes.writes, takes.fresh⟩
  constructor
  · intro ⟨later, handled, reserved⟩
    by_contra unaffordable
    have unshared : fault.index ∉ memory.sharedSlots parent clone :=
      fun shared => unaffordable (.inl shared)
    by_cases none : memory.sharedSlots parent clone = ∅
    · have held : fault.answers.held ≠ 0 := fun notHeld => unaffordable (.inr ⟨none, notHeld⟩)
      exact balanced.fault_held takesDenied none held rfl handled
    · exact balanced.fault_taking takesDenied none unshared handled reserved
  · intro affordable
    obtain ⟨current, id, present, place, shouldCow⟩ := takes.writes
    obtain ⟨map, mapped⟩ := cowMap_of_shouldCow place shouldCow
    have ends : ∃ result, memory.handleCowFault zero denied.object
        denied.index denied.answers = some result :=
      handleCowFault_isSome denied.answers present place mapped
    obtain ⟨⟨response, later⟩, handled⟩ := ends
    have ended : response = .«continue» ∧ later.Balanced parent clone := by
      rcases affordable with shared | ⟨unshared, notHeld⟩
      · exact balanced.fault_shared takesDenied shared handled
      · exact balanced.fault_unshared takesDenied unshared notHeld handled
    obtain ⟨rfl, still⟩ := ended
    exact ⟨later, handled, still.reserved⟩

end

theorem Balanced.step (step : AffordableStep zero parent clone memory later) :
    later.Balanced parent clone := by
  cases step with
  | fault takes affordable handled =>
    rcases affordable with shared | ⟨unshared, notHeld⟩
    · exact (balanced.fault_shared takes shared handled).2
    · exact (balanced.fault_unshared takes unshared notHeld handled).2

end

end

/-! ## After a clone -/

section

variable {γ : Type} {zero : γ} {memory start state : AnonymousMemory γ}
variable {parent : Nat} {original : AnonymousVMObject}

/-- Neither parent nor clone has a page of its own. -/
def Pageless (memory : AnonymousMemory γ) (parent clone : Nat) : Prop :=
  ∀ object index id : Nat, object = parent ∨ object = clone →
    memory.slotAt object index ≠ some (.page id)

theorem Pageless.sharedSlots (pageless : memory.Pageless parent clone) :
    memory.sharedSlots parent clone = ∅ := by
  apply eq_empty_of_forall_notMem
  intro index member
  obtain ⟨id, inParent, _⟩ := mem_sharedSlots.mp member
  exact pageless parent index id (.inl rfl) inParent

theorem Pageless.no_fault (pageless : memory.Pageless parent clone) :
    ¬ memory.TakesFault parent clone fault := by
  intro takes
  obtain ⟨current, id, present, place, _⟩ := takes.writes
  apply pageless fault.object fault.index id takes.party
  rw [slotAt_of_present present, place]

section

variable (present : memory.objects[parent]? = some original)

include present

theorem pageless_of_unwritten (noPages : original.physicalPages.countP PageSlot.isOwnPage = 0) :
    Pageless (memory.addObject (ofSlots
      (List.replicate original.physicalPages.length .sharedZeroPage) none))
      parent memory.objects.length := by
  intro object index id party place
  rw [slotAt_added rfl] at place
  split_ifs at place with isClone
  · have member := List.mem_of_getElem? place
    simp [ofSlots] at member
  · rcases party with rfl | same
    · rw [slotAt_of_present present] at place
      have own := List.countP_eq_zero.mp noPages _ (List.mem_of_getElem? place)
      exact own rfl
    · exact isClone same

theorem balanced_of_sharing {set : CommittedPhysicalPageSet}
    (nonvolatile : original.isVolatile = false)
    (unshared : ∀ index id, memory.slotAt parent index = some (.page id) → memory.refCount id = 1)
    (reserved : set.pageCount = original.physicalPages.countP PageSlot.isOwnPage) :
    (memory.afterSharing parent original set).Balanced parent memory.objects.length := by
  obtain ⟨inside, _⟩ := List.getElem?_eq_some_iff.mp present
  refine ⟨Nat.ne_of_lt inside, ?_, memory.cowPools.length, ?_, ?_⟩
  · intro object index other otherIndex id party place otherPlace
    rw [slotAt_sharing_party present party] at place
    have one := unshared index id place
    by_cases isParty : other = parent ∨ other = memory.objects.length
    · rw [slotAt_sharing_party present isParty] at otherPlace
      exact ⟨isParty, (place_unique one place otherPlace).2⟩
    · rw [slotAt_sharing present, if_neg (fun same => isParty (.inr same))] at otherPlace
      exact absurd (place_unique one place otherPlace).1 (fun same => isParty (.inl same))
  · have positions : (memory.afterSharing parent original set).sharedSlots
        parent memory.objects.length =
        (range original.physicalPages.length).filter fun index =>
          (original.physicalPages[index]?).any PageSlot.isOwnPage = true := by
      ext index
      rw [mem_sharedSlots, mem_filter, mem_range]
      simp only [slotAt_sharing_party present (.inl rfl), slotAt_sharing_party present (.inr rfl),
        and_self, slotAt_of_present present]
      constructor
      · intro ⟨id, place⟩
        obtain ⟨indexInside, _⟩ := List.getElem?_eq_some_iff.mp place
        exact ⟨indexInside, by rw [place]; rfl⟩
      · intro ⟨indexInside, own⟩
        cases slot : original.physicalPages[index]? with
        | none => simp [slot] at own
        | some found =>
          cases found with
          | sharedZeroPage | lazyCommittedPage => simp [slot, PageSlot.isOwnPage] at own
          | page id => exact ⟨id, rfl⟩
    rw [positions, card_positions_eq_countP, ← reserved]
    simp [afterSharing]
  · intro object party
    by_cases isClone : object = memory.objects.length
    · obtain ⟨stays, pooled, _⟩ := sharingClone_frame original memory.cowPools.length
      exact ⟨_, by simp [isClone, afterSharing], stays, .inl pooled⟩
    · refine ⟨sharingParent original memory.cowPools.length, ?_, nonvolatile, .inl rfl⟩
      rcases party with rfl | same
      · rw [afterSharing, List.getElem?_append_left (by simpa using inside)]
        simp [inside]
      · exact absurd same isClone

end

/-- An object that shares no page is cloned.  As long as all faults can be
afforded, a page is reserved for each shared slot; and a next fault makes do
with the reserved pages, and leaves enough of them, exactly if it can be
afforded. -/
theorem reachable_reserved_sufficient_iff {committed granted : Bool}
    (present : memory.objects[parent]? = some original) (nonvolatile : original.isVolatile = false)
    (unshared : ∀ index id, memory.slotAt parent index = some (.page id) → memory.refCount id = 1)
    (cloned : memory.tryClone parent committed granted = some (.ok start))
    (reached : Relation.ReflTransGen
      (AffordableStep zero parent memory.objects.length) start state) :
    state.Reserved parent memory.objects.length ∧
      ∀ fault, state.TakesFault parent memory.objects.length fault →
        (state.Sufficient zero parent memory.objects.length fault ↔
          state.Affordable parent memory.objects.length fault) := by
  have initially : start.Balanced parent memory.objects.length ∨
      start.Pageless parent memory.objects.length := by
    obtain ⟨found, foundPresent, effect⟩ := tryClone_effect cloned
    rw [present] at foundPresent
    cases foundPresent
    cases effect with
    | prePurged isVolatile => simp [nonvolatile] at isVolatile
    | unwritten noPages => exact .inr (pageless_of_unwritten present noPages)
    | sharing _ _ set reserved =>
      exact .inl (balanced_of_sharing present nonvolatile unshared reserved)
  have kept : state.Balanced parent memory.objects.length ∨
      state.Pageless parent memory.objects.length := by
    induction reached with
    | refl => exact initially
    | tail _ step ih =>
      rcases ih with balanced | pageless
      · exact .inl (balanced.step step)
      · cases step with
        | fault takes => exact absurd takes pageless.no_fault
  rcases kept with balanced | pageless
  · exact ⟨balanced.reserved, fun fault takes =>
      balanced.sufficient_iff takes⟩
  · refine ⟨?_, fun fault takes => absurd takes pageless.no_fault⟩
    rw [Reserved, pageless.sharedSlots]
    exact ⟨Nat.zero_le _, Nat.zero_le _⟩

end

/-! ## Two pages -/

def twoPages : AnonymousMemory Nat := ⟨[ofSlots [.page 0, .page 1] none], [], id⟩

def twoPagesForked : AnonymousMemory Nat :=
  twoPages.afterSharing 0 (ofSlots [.page 0, .page 1] none) ⟨2⟩

theorem twoPages_unshared (index id : Nat) (place : twoPages.slotAt 0 index = some (.page id)) :
    twoPages.refCount id = 1 := by
  match index with
  | 0 | 1 =>
    cases place
    rfl
  | index + 2 => cases place

def twoPagesCopied : AnonymousMemory Nat where
  objects := [{ ofSlots [.page 10, .page 1] none with
        cowMap := some [false, true]
        sharedCommittedCowPages := some 0 },
      { ofSlots [.page 0, .page 1] none with
        cowMap := some [true, true]
        sharedCommittedCowPages := some 0 }]
  cowPools := [⟨1⟩]
  contents := Function.update id 10 0

/-- After the parent copied the first page the clone can copy the second. -/
theorem reserved_sufficient_twoPages :
    twoPagesCopied.Reserved 0 1 ∧ twoPagesCopied.Sufficient 0 0 1 ⟨1, 1, ⟨11, false, true, 1⟩⟩ := by
  let first : CowFault := ⟨0, 0, ⟨10, false, true, 1⟩⟩
  let second : CowFault := ⟨1, 1, ⟨11, false, true, 1⟩⟩
  have cloned : twoPages.tryClone 0 true true = some (.ok twoPagesForked) := rfl
  have takes : twoPagesForked.TakesFault 0 1 first := ⟨.inl rfl, ⟨_, _, rfl, rfl, rfl⟩, rfl⟩
  have affordable : twoPagesForked.Affordable 0 1 first := .inl (by decide)
  have handled : twoPagesForked.handleCowFault 0 first.object first.index
      first.answers = some (.«continue», twoPagesCopied) := rfl
  have step : AffordableStep 0 0 1 twoPagesForked twoPagesCopied := .fault takes affordable handled
  obtain ⟨reserved, sufficient⟩ := reachable_reserved_sufficient_iff rfl rfl
    twoPages_unshared cloned (Relation.ReflTransGen.single step)
  have takesSecond : twoPagesCopied.TakesFault 0 1 second := ⟨.inr rfl, ⟨_, _, rfl, rfl, rfl⟩, rfl⟩
  have shared : second.index ∈ twoPagesCopied.sharedSlots 0 1 := by decide
  exact ⟨reserved, (sufficient second takesSecond).mpr (.inl shared)⟩

/-- Parent and clone both write to the first page.  The second page is still
shared then, but the reserved pages are used up, and the next write fails if
no uncommitted page can be allocated.  It does not matter whether the fault
handler holds a reference to the page. -/
theorem cowReservation_exhausted : twoPages.tryClone 0 true true = some (.ok twoPagesForked) ∧
      ∀ held ∈ [0, 1], ∃ first second third : AnonymousMemory Nat,
        twoPagesForked.TakesFault 0 1 ⟨0, 0, ⟨10, false, true, held⟩⟩ ∧
        twoPagesForked.handleCowFault 0 0 0 ⟨10, false, true, held⟩ = some (.«continue», first) ∧
        first.TakesFault 0 1 ⟨1, 0, ⟨11, false, true, held⟩⟩ ∧
        first.handleCowFault 0 1 0 ⟨11, false, true, held⟩ = some (.«continue», second) ∧
        second.sharedSlots 0 1 = {1} ∧ ¬ second.Reserved 0 1 ∧
        second.TakesFault 0 1 ⟨0, 1, ⟨12, false, true, held⟩⟩ ∧
        second.handleCowFault 0 0 1 ⟨12, false, true, held⟩ = some (.outOfMemory, third) := by
  refine ⟨rfl, ?_⟩
  intro held member
  rcases List.mem_pair.mp member with rfl | rfl <;>
    refine ⟨_, _, _, ⟨.inl rfl, ⟨_, _, rfl, rfl, rfl⟩, rfl⟩, rfl,
      ⟨.inr rfl, ⟨_, _, rfl, rfl, rfl⟩, rfl⟩, rfl, by decide, by decide,
      ⟨.inl rfl, ⟨_, _, rfl, rfl, rfl⟩, rfl⟩, rfl⟩

end AnonymousMemory

end MixUpOS.Kernel.Memory
