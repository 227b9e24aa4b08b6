import MixUpOS.Kernel.Memory.AnonymousMemoryCommitment
import MixUpOS.Kernel.Memory.AnonymousMemoryPlaces

/-!
# Shared pages are guarded

A page that is in two slots is copied before it is written: the bits of the
copy-on-write maps are set at least where a page is shared.  A fault therefore
leaves all contents as they are, and what is written afterwards is in one slot
only.
-/

namespace MixUpOS.Kernel.Memory

open AnonymousVMObject

namespace AnonymousMemory

section

variable {γ : Type}

def cowBitAt (memory : AnonymousMemory γ) (object index : Nat) : Bool :=
  match memory.objects[object]? with
  | none => false
  | some current => current.cowBit index

/-- The page in the slot is in no other slot. -/
def Private (memory : AnonymousMemory γ) (object index id : Nat) : Prop :=
  memory.slotAt object index = some (.page id) ∧
    ∀ other otherIndex, memory.slotAt other otherIndex = some (.page id) →
      other = object ∧ otherIndex = index

/-- Slots with a shared page have their copy-on-write bit set, and every write
can be served. -/
structure Guarded (memory : AnonymousMemory γ) : Prop where
  committed : ∀ current ∈ memory.objects, current.Committed
  nonvolatile : ∀ current ∈ memory.objects, current.isVolatile = false
  guarded : ∀ object index other otherIndex id : Nat, memory.slotAt object index = some (.page id) →
    memory.slotAt other otherIndex = some (.page id) →
    ¬ (other = object ∧ otherIndex = index) →
    memory.cowBitAt object index = true

/-- The slot received a new page, and no other slot changed. -/
def Refilled (memory later : AnonymousMemory γ) (object index page : Nat) : Prop :=
  ∀ other otherIndex, later.slotAt other otherIndex =
    if other = object ∧ otherIndex = index then some (.page page)
    else memory.slotAt other otherIndex

end

section

variable {γ : Type} {memory later : AnonymousMemory γ}
variable {index id : Nat}

theorem Private.of_unmoved (isPrivate : memory.Private object index id)
    (unmoved : ∀ other otherIndex, later.slotAt other otherIndex =
      memory.slotAt other otherIndex) : later.Private object index id := by
  simpa only [Private, unmoved] using isPrivate

theorem Guarded.isPrivate (guarded : memory.Guarded)
    (place : memory.slotAt object index = some (.page id))
    (clear : memory.cowBitAt object index = false) : memory.Private object index id := by
  refine ⟨place, ?_⟩
  intro other otherIndex otherPlace
  by_contra differ
  have set := guarded.guarded object index other otherIndex id place otherPlace differ
  simp [clear] at set

/-- The guard survives when every page is private or where it was, with its
bit. -/
theorem Guarded.of_places (guarded : memory.Guarded)
    (committed : ∀ current ∈ later.objects, current.Committed)
    (nonvolatile : ∀ current ∈ later.objects, current.isVolatile = false)
    (places : ∀ object index id : Nat, later.slotAt object index = some (.page id) →
      later.Private object index id ∨ memory.slotAt object index = some (.page id) ∧
          (memory.cowBitAt object index = true → later.cowBitAt object index = true)) :
    later.Guarded := by
  refine ⟨committed, nonvolatile, ?_⟩
  intro object index other otherIndex id place otherPlace differ
  rcases places object index id place with isPrivate | ⟨before, kept⟩
  · exact absurd (isPrivate.2 other otherIndex otherPlace) differ
  · rcases places other otherIndex id otherPlace with
      isPrivate | ⟨otherBefore, _⟩
    · obtain ⟨same, sameIndex⟩ := isPrivate.2 object index place
      exact absurd ⟨same.symm, sameIndex.symm⟩ differ
    · exact kept (guarded.guarded object index other otherIndex id before otherBefore differ)

theorem read_of_ne (slots : later.slotAt other otherIndex = memory.slotAt other otherIndex)
    (contents : later.contents = Function.update memory.contents page content)
    (elsewhere : memory.slotAt other otherIndex ≠ some (.page page)) :
    later.read zero other otherIndex = memory.read zero other otherIndex := by
  rw [read, read, slots]
  cases found : memory.slotAt other otherIndex with
  | none => rfl
  | some slot =>
    cases slot with
    | sharedZeroPage | lazyCommittedPage => rfl
    | page id =>
      have differ : id ≠ page := by
        rintro rfl
        exact elsewhere found
      simp [slotContent, contents, differ]

theorem slotContent_congr (contents : later.contents = memory.contents) :
    later.slotContent zero = memory.slotContent zero := by
  funext slot
  cases slot with
  | sharedZeroPage | lazyCommittedPage => rfl
  | page id => simp [slotContent, contents]

end

section

variable {γ : Type} {memory later : AnonymousMemory γ}
variable {after : AnonymousVMObject}

theorem cowBitAt_replaced (inside : object < memory.objects.length)
    (objects : later.objects = memory.objects.set object after) :
    later.cowBitAt other otherIndex =
      if other = object then after.cowBit otherIndex
      else memory.cowBitAt other otherIndex := by
  by_cases same : other = object
  · subst same
    simp [cowBitAt, objects, inside]
  · simp [cowBitAt, objects, same, Ne.symm same]

end

/-- What a fault keeps. -/
structure Kept {γ : Type} (zero : γ) (memory later : AnonymousMemory γ) : Prop where
  guarded : later.Guarded
  length : later.objects.length = memory.objects.length
  read : ∀ object index, later.read zero object index = memory.read zero object index

section

variable {γ : Type} {memory later : AnonymousMemory γ}
variable {index id : Nat} {answers : FaultAnswers}
variable {after : AnonymousVMObject}

section

variable (guarded : memory.Guarded) (present : memory.objects[object]? = some original)
  (objects : later.objects = memory.objects.set object after)
  (committed : after.Committed) (nonvolatile : after.isVolatile = false)

include guarded present objects committed nonvolatile

/-- Replacing an object keeps the guard if each of its pages is private, or was
there before with its bit. -/
theorem Guarded.replaced
    (places : ∀ position found, after.physicalPages[position]? = some (.page found) →
      later.Private object position found ∨ original.physicalPages[position]? = some (.page found) ∧
          (original.cowBit position = true → after.cowBit position = true)) : later.Guarded := by
  obtain ⟨inside, _⟩ := List.getElem?_eq_some_iff.mp present
  apply guarded.of_places (forall_mem_replaced guarded.committed objects committed)
    (forall_mem_replaced guarded.nonvolatile objects nonvolatile)
  intro other otherIndex found place
  rw [slotAt_replaced objects inside] at place
  rw [cowBitAt_replaced inside objects]
  split_ifs at place ⊢ with here
  · subst here
    simpa [slotAt_of_present present, cowBitAt, present] using places otherIndex found place
  · exact .inr ⟨place, id⟩

/-- Replacing an object keeps the guard if its slots stay where they are and
bits are cleared only for private pages. -/
theorem Guarded.kept_unmoved (contents : later.contents = memory.contents)
    (slots : after.physicalPages = original.physicalPages)
    (bits : ∀ position found, original.physicalPages[position]? = some (.page found) →
      memory.Private object position found ∨
        (original.cowBit position = true → after.cowBit position = true)) :
    Kept zero memory later := by
  have unmoved : ∀ other otherIndex, later.slotAt other otherIndex =
      memory.slotAt other otherIndex :=
    fun other otherIndex => slotAt_replaced_same present objects slots
  refine ⟨guarded.replaced present objects committed nonvolatile ?_, by simp [objects],
    fun other otherIndex => by rw [read, read, unmoved, slotContent_congr contents]⟩
  intro position found place
  rw [slots] at place
  exact (bits position found place).imp (·.of_unmoved unmoved) (⟨place, ·⟩)

theorem Guarded.kept_refilled (place : original.physicalPages[index]? = some slot)
    (fresh : memory.refCount answers.page = 0)
    (contents : later.contents = Function.update memory.contents answers.page
      (memory.slotContent zero slot))
    (slots : after.physicalPages = (original.setSlot index (.page answers.page)).physicalPages)
    (bits : ∀ position, position ≠ index →
      original.cowBit position = true → after.cowBit position = true) :
    Kept zero memory later ∧ later.Private object index answers.page := by
  have refilled : memory.Refilled later object index answers.page :=
    fun other otherIndex => slotAt_replaced_slot present place objects slots
  have isPrivate : later.Private object index answers.page := by
    refine ⟨by rw [refilled, if_pos ⟨rfl, rfl⟩], ?_⟩
    intro other otherIndex place
    by_contra differ
    rw [refilled, if_neg differ] at place
    exact slotAt_ne_of_refCount fresh place
  have placeAt : memory.slotAt object index = some slot := by rw [slotAt_of_present present, place]
  have same : ∀ other otherIndex, later.read zero other otherIndex =
      memory.read zero other otherIndex := by
    intro other otherIndex
    by_cases here : other = object ∧ otherIndex = index
    · obtain ⟨rfl, rfl⟩ := here
      simp [read, refilled other otherIndex, placeAt, slotContent, contents]
    · exact read_of_ne (by rw [refilled, if_neg here]) contents (slotAt_ne_of_refCount fresh)
  refine ⟨⟨guarded.replaced present objects committed nonvolatile ?_, by simp [objects], same⟩,
    isPrivate⟩
  intro position found foundPlace
  rw [slots, setSlot, List.getElem?_set] at foundPlace
  split_ifs at foundPlace with here
  · cases foundPlace
    exact .inl (here ▸ isPrivate)
  · exact .inr ⟨foundPlace, bits position (Ne.symm here)⟩

end

theorem slotContent_of_noPage (noPage : slot.isOwnPage = false) :
    memory.slotContent zero slot = zero := by
  cases slot with
  | sharedZeroPage | lazyCommittedPage => rfl
  | page found => cases noPage

theorem Guarded.zeroFault (guarded : memory.Guarded)
    (place : memory.slotAt object index = some slot) (noPage : slot.isOwnPage = false)
    (fresh : memory.refCount answers.page = 0)
    (handled : memory.zeroFault zero object index slot answers = some (response, later)) :
    Kept zero memory later ∧ (response = .«continue» →
      later.slotAt object index = some (.page answers.page) ∧
        ∀ page, page ≠ answers.page → memory.refCount page = 0 → later.refCount page = 0) := by
  obtain ⟨original, after, present, fault, objects, _, contents⟩ := zeroFault_effect handled
  rw [slotAt_of_present present] at place
  have member := List.mem_of_getElem? present
  have preserves : original.Preserves after := by
    apply handleZeroFault_preserves _ fault
    intro isLazy _ empty
    rw [place, isLazy] at empty
    cases empty
  have committed := preserves.committed (guarded.committed original member)
  have nonvolatile : after.isVolatile = false := by
    rw [← guarded.nonvolatile original member]
    rcases handleZeroFault_effect fault with ⟨rfl, _⟩ |
      ⟨slot, source, _, _, rfl, ⟨_, taken⟩ | ⟨_, rfl⟩⟩
    · rfl
    · exact (unusedPages_allocateCommittedPage taken).2.2
    · rfl
  rcases handleZeroFault_effect fault with
    ⟨rfl, own | refused⟩ | ⟨found, source, foundPlace, _, rfl, origin⟩
  · rw [place] at own
    simp [noPage] at own
  · rcases contents with ⟨_, contents⟩ | ⟨changed, _⟩
    · refine ⟨guarded.kept_unmoved present objects committed nonvolatile
        contents rfl (fun _ _ _ => .inr fun set => set), ?_⟩
      intro continued
      rw [refused] at continued
      cases continued
    · exact absurd rfl changed
  · -- The slots and the map do not depend on where the new page came from.
    obtain ⟨slots, cowMap⟩ : (source.setSlot index (.page answers.page)).physicalPages =
          (original.setSlot index (.page answers.page)).physicalPages ∧
        (source.setSlot index (.page answers.page)).cowMap = original.cowMap := by
      rcases origin with ⟨_, taken⟩ | ⟨_, rfl⟩
      · obtain ⟨set, rest, _, _, rfl⟩ := allocateCommittedPage_eq_some taken
        exact ⟨rfl, rfl⟩
      · exact ⟨rfl, rfl⟩
    have filled : (source.setSlot index (.page answers.page)).physicalPages[index]? =
        some (.page answers.page) := by
      obtain ⟨indexInside, _⟩ := List.getElem?_eq_some_iff.mp place
      rw [slots]
      exact List.getElem?_set_self indexInside
    rcases contents with ⟨same, _⟩ | ⟨_, contents⟩
    · rw [same, place] at filled
      cases filled
      cases noPage
    · have content : memory.slotContent zero slot = zero := slotContent_of_noPage noPage
      obtain ⟨kept, isPrivate⟩ := guarded.kept_refilled present objects
        committed nonvolatile place fresh (by rw [content, contents]) slots (by
          intro position _
          simp [cowBit, cowMap])
      refine ⟨kept, fun _ => ⟨isPrivate.1, ?_⟩⟩
      intro page differ unreferenced
      apply refCount_eq_zero
      intro other otherIndex found
      rw [slotAt_replaced_slot present place objects slots] at found
      split_ifs at found with here
      · cases found
        exact differ rfl
      · exact slotAt_ne_of_refCount unreferenced found

/-- A copy-on-write fault changes nothing that is read, and if the write can
continue, its page is in no other slot. -/
theorem Guarded.handleCowFault (guarded : memory.Guarded)
    (place : memory.slotAt object index = some (.page id))
    (fresh : memory.refCount answers.page = 0)
    (handled : memory.handleCowFault zero object index answers = some (response, later)) :
    Kept zero memory later ∧ (response = .«continue» →
      ∃ page, later.Private object index page) := by
  obtain ⟨original, slot, present, slotPlace, faulted⟩ := handleCowFault_effect handled
  have same : slot = .page id := by
    rw [slotAt_of_present present, slotPlace] at place
    cases place
    rfl
  subst same
  have member := List.mem_of_getElem? present
  obtain ⟨after, objects, preserves, volatileSame, replaced⟩ := faulted.replaced present
  have committed := preserves.committed (guarded.committed original member)
  have nonvolatile : after.isVolatile = false := by
    rw [volatileSame]
    exact guarded.nonvolatile original member
  cases replaced with
  | unchanged stopped slots cowMap contents =>
    refine ⟨guarded.kept_unmoved present objects committed nonvolatile
      contents slots ?_, fun continued => absurd continued stopped⟩
    intro position _ _
    simp [cowBit, cowMap]
  | adopted unshared slots bits contents =>
    have isPrivate : memory.Private object index id := by
      refine ⟨place, fun _ _ otherPlace => place_unique ?_ place otherPlace⟩
      have pos := refCount_pos place
      simp only [slotRefCount] at unshared
      omega
    refine ⟨guarded.kept_unmoved present objects committed nonvolatile
      contents slots ?_, fun _ => ⟨id, ?_⟩⟩
    · intro position found foundPlace
      by_cases here : position = index
      · subst here
        rw [slotPlace] at foundPlace
        cases foundPlace
        exact .inl isPrivate
      · exact .inr (bits position here)
    · exact isPrivate.of_unmoved fun _ _ => slotAt_replaced_same present objects slots
  | copied slots bits contents =>
    obtain ⟨kept, isPrivate⟩ := guarded.kept_refilled present objects
      committed nonvolatile slotPlace fresh contents slots bits
    exact ⟨kept, fun _ => ⟨answers.page, isPrivate⟩⟩

end

/-- What a write does: it changes what is read in one place. -/
structure Wrote {γ : Type} (zero : γ) (memory later : AnonymousMemory γ)
    (object index : Nat) (change : γ → γ) : Prop where
  guarded : later.Guarded
  length : later.objects.length = memory.objects.length
  read : ∀ other otherIndex, later.read zero other otherIndex =
    if other = object ∧ otherIndex = index then
      (memory.read zero other otherIndex).map change
    else memory.read zero other otherIndex

section

variable {γ : Type} {zero : γ} {memory later : AnonymousMemory γ}
variable {object index id : Nat} {change : γ → γ}
variable {response : PageFaultResponse}

theorem Guarded.store (guarded : memory.Guarded) (isPrivate : memory.Private object index id)
    (zero : γ) (change : γ → γ) :
    ∃ later, memory.store object index change = some later ∧
      Wrote zero memory later object index change := by
  obtain ⟨current, present, slot⟩ := Option.bind_eq_some_iff.mp isPrivate.1
  let later := memory.setContent id (change (memory.contents id))
  have stored : memory.store object index change = some later := by
    simp [AnonymousMemory.store, present, slot, later]
  refine ⟨later, stored, ⟨?_, rfl, ?_⟩⟩
  · exact ⟨guarded.committed, guarded.nonvolatile, guarded.guarded⟩
  intro other otherIndex
  have unmoved : later.slotAt other otherIndex = memory.slotAt other otherIndex := rfl
  by_cases here : other = object ∧ otherIndex = index
  · obtain ⟨rfl, rfl⟩ := here
    rw [AnonymousMemory.read, AnonymousMemory.read, unmoved, isPrivate.1]
    simp [slotContent, later, setContent]
  · rw [if_neg here]
    exact read_of_ne unmoved rfl fun found => here (isPrivate.2 other otherIndex found)

theorem Kept.wrote (kept : Kept zero memory middle)
    (wrote : Wrote zero middle later object index change) :
    Wrote zero memory later object index change := by
  refine ⟨wrote.guarded, wrote.length.trans kept.length, ?_⟩
  intro other otherIndex
  rw [wrote.read, kept.read]

theorem Kept.trans (first : Kept zero memory middle)
    (second : Kept zero middle later) : Kept zero memory later :=
  ⟨second.guarded, second.length.trans first.length, fun other otherIndex =>
      (second.read other otherIndex).trans (first.read other otherIndex)⟩

/-- A write either takes effect in its place, or fails and changes nothing
that is read. -/
def Served (zero : γ) (memory : AnonymousMemory γ) (object index : Nat)
    (change : γ → γ) (response : PageFaultResponse) (later : AnonymousMemory γ) : Prop :=
  response = .«continue» ∧ Wrote zero memory later object index change ∨
    response ≠ .«continue» ∧ Kept zero memory later

theorem Guarded.writeOwnPage (guarded : memory.Guarded)
    (place : memory.slotAt object index = some (.page id))
    (fresh : memory.refCount copy.page = 0) (zero : γ) (change : γ → γ) :
    ∃ response later, memory.writeOwnPage zero object index change copy = some (response, later) ∧
      Served zero memory object index change response later := by
  obtain ⟨current, present, slot⟩ := Option.bind_eq_some_iff.mp place
  have bit : current.shouldCow index false = memory.cowBitAt object index := by
    rw [slotAt_of_present present] at place
    simp [AnonymousVMObject.shouldCow, cowBitAt, present, place]
  cases shouldCow : current.shouldCow index false with
  | false =>
    have isPrivate := guarded.isPrivate place (bit.symm.trans shouldCow)
    obtain ⟨later, stored, wrote⟩ := guarded.store isPrivate zero change
    refine ⟨.«continue», later, ?_, .inl ⟨rfl, wrote⟩⟩
    simp [AnonymousMemory.writeOwnPage, present, shouldCow, stored]
  | true =>
    obtain ⟨map, mapped⟩ := cowMap_of_shouldCow slot shouldCow
    have ends : ∃ result, memory.handleCowFault zero object index copy = some result :=
      handleCowFault_isSome copy present slot mapped
    obtain ⟨⟨reply, middle⟩, handled⟩ := ends
    obtain ⟨kept, continues⟩ := guarded.handleCowFault place fresh handled
    have faulted : memory.cowFault zero object index copy =
        some (if copy.mapped then reply else .outOfMemory, middle) := by
      simp [cowFault, handled]
    by_cases goesOn : (if copy.mapped then reply else .outOfMemory) = .«continue»
    · have continued : reply = .«continue» := by
        cases mappable : copy.mapped with
        | true => simpa [mappable] using goesOn
        | false => simp [mappable] at goesOn
      obtain ⟨page, isPrivate⟩ := continues continued
      obtain ⟨later, stored, wrote⟩ := kept.guarded.store isPrivate zero change
      refine ⟨.«continue», later, ?_, .inl ⟨rfl, kept.wrote wrote⟩⟩
      simp [AnonymousMemory.writeOwnPage, present, shouldCow, faulted, goesOn, stored]
    · refine ⟨_, middle, ?_, .inr ⟨goesOn, kept⟩⟩
      simp [AnonymousMemory.writeOwnPage, present, shouldCow, faulted, goesOn]

theorem Guarded.write (guarded : memory.Guarded) (place : memory.slotAt object index = some slot)
    (fillFresh : memory.refCount fill.page = 0) (copyFresh : memory.refCount copy.page = 0)
    (differ : copy.page ≠ fill.page) (zero : γ) (change : γ → γ) :
    ∃ response later, memory.write zero object index change fill copy = some (response, later) ∧
      Served zero memory object index change response later := by
  obtain ⟨current, present, slotPlace⟩ := Option.bind_eq_some_iff.mp place
  cases own : slot.isOwnPage with
  | true =>
    cases slot with
    | sharedZeroPage | lazyCommittedPage => cases own
    | page id =>
      obtain ⟨response, later, done, served⟩ := guarded.writeOwnPage place copyFresh zero change
      refine ⟨response, later, ?_, served⟩
      simp [AnonymousMemory.write, present, slotPlace, own, done]
  | false =>
    have committed := guarded.committed current (List.mem_of_getElem? present)
    have drawable : slot = .lazyCommittedPage → slot.isOwnPage = false →
        ∃ after, current.allocateCommittedPage = some after := by
      intro isLazy _
      apply allocateCommittedPage_of_lazy committed
      rw [← isLazy]
      exact List.mem_of_getElem? slotPlace
    have ends : ∃ result, memory.zeroFault zero object index slot fill = some result :=
      zeroFault_isSome present (handleZeroFault_isSome
        slotPlace drawable fill.page fill.granted fill.mapped)
    obtain ⟨⟨reply, middle⟩, handled⟩ := ends
    obtain ⟨kept, continues⟩ := guarded.zeroFault place own fillFresh handled
    by_cases continued : reply = .«continue»
    · obtain ⟨filled, unreferenced⟩ := continues continued
      obtain ⟨response, later, done, served⟩ :=
        kept.guarded.writeOwnPage filled (unreferenced copy.page differ copyFresh) zero change
      refine ⟨response, later, ?_, ?_⟩
      · simp [AnonymousMemory.write, present, slotPlace, own, handled, continued, done]
      · rcases served with ⟨goesOn, wrote⟩ | ⟨stopped, still⟩
        · exact .inl ⟨goesOn, kept.wrote wrote⟩
        · exact .inr ⟨stopped, kept.trans still⟩
    · refine ⟨reply, middle, ?_, .inr ⟨continued, kept⟩⟩
      simp [AnonymousMemory.write, present, slotPlace, own, handled, continued]

end

end AnonymousMemory

end MixUpOS.Kernel.Memory
