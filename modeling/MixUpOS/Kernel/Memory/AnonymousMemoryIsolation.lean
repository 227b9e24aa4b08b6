import MixUpOS.Kernel.Memory.AnonymousMemoryGuard

/-!
# Fork isolation

Objects that share pages after a clone are observed as if every clone had
been given a copy of its own.  The abstract memory is a list of copies, and a
run of clones and writes on the objects is a run of the same clones and writes
on the copies.
-/

namespace MixUpOS.Kernel.Memory

open AK Library AnonymousVMObject List

/-- What happened, as seen by someone who does not know about sharing. -/
inductive MemoryEvent (γ : Type) where
  | clone (object : Nat)
  | write (object index : Nat) (change : γ → γ)
  | failure

namespace MemoryEvent

variable {γ : Type}

/-- The effect on memories that share nothing. -/
def apply (copies : List (List γ)) : MemoryEvent γ → List (List γ)
  | .clone object => copies ++ (copies[object]?).toList
  | .write object index change =>
    copies.modify object fun copy => copy.modify index change
  | .failure => copies

end MemoryEvent

namespace AnonymousMemory

section

variable {γ : Type}

/-- What is observed through all objects. -/
def observed (zero : γ) (memory : AnonymousMemory γ) : List (List γ) :=
  memory.objects.map fun object =>
    object.physicalPages.map (memory.slotContent zero)

/-- A clone or a write.  The pages handed out are in no slot. -/
inductive Step (zero : γ) (memory : AnonymousMemory γ) : MemoryEvent γ → AnonymousMemory γ → Prop
  | clone {object : Nat} {committed granted : Bool} {later : AnonymousMemory γ}
      (cloned : memory.tryClone object committed granted = some (.ok later)) :
      Step zero memory (.clone object) later
  | cloneFailed {object : Nat} {committed granted : Bool} {code : ErrNo}
      (failed : memory.tryClone object committed granted = some (.error code)) :
      Step zero memory .failure memory
  | write {object index : Nat} {change : γ → γ} {fill copy : FaultAnswers}
      {later : AnonymousMemory γ}
      (fillFresh : memory.refCount fill.page = 0)
      (copyFresh : memory.refCount copy.page = 0)
      (differ : copy.page ≠ fill.page)
      (written : memory.write zero object index change fill copy = some (.«continue», later)) :
      Step zero memory (.write object index change) later
  | writeFailed {object index : Nat} {change : γ → γ}
      {fill copy : FaultAnswers} {response : PageFaultResponse}
      {later : AnonymousMemory γ}
      (fillFresh : memory.refCount fill.page = 0)
      (copyFresh : memory.refCount copy.page = 0)
      (differ : copy.page ≠ fill.page)
      (stopped : response ≠ .«continue»)
      (failed : memory.write zero object index change fill copy = some (response, later)) :
      Step zero memory .failure later

/-- A run with the events of its steps. -/
inductive Run (zero : γ) (start : AnonymousMemory γ) :
    List (MemoryEvent γ) → AnonymousMemory γ → Prop
  | refl : Run zero start [] start
  | tail {events : List (MemoryEvent γ)} {event : MemoryEvent γ}
      {memory later : AnonymousMemory γ} (run : Run zero start events memory)
      (step : Step zero memory event later) :
      Run zero start (events ++ [event]) later

/-- The objects are observed as the given copies. -/
structure Represents (zero : γ) (memory : AnonymousMemory γ) (copies : List (List γ)) : Prop where
  length : memory.objects.length = copies.length
  read : ∀ object index, memory.read zero object index = entry copies object index

end

section

variable {γ : Type} {memory later : AnonymousMemory γ}
variable {parent : AnonymousVMObject}

theorem sharingClone_read (pool index : Nat) :
    ((sharingClone parent pool).physicalPages[index]?).map (memory.slotContent zero) =
      (parent.physicalPages[index]?).map (memory.slotContent zero) := by
  cases unused : hasUnusedCommittedPages parent with
  | false => simp [sharingClone, unused, withSharedCow]
  | true =>
    simp only [sharingClone, unused, if_true, dropLazyPages, withSharedCow,
      getElem?_map, Option.map_map]
    congr 1
    funext slot
    cases slot with
    | sharedZeroPage | lazyCommittedPage | page id => rfl

theorem unwritten_read (noPages : parent.physicalPages.countP PageSlot.isOwnPage = 0)
    (index : Nat) :
    ((replicate parent.physicalPages.length
        PageSlot.sharedZeroPage)[index]?).map (memory.slotContent zero) =
      (parent.physicalPages[index]?).map (memory.slotContent zero) := by
  cases slot : parent.physicalPages[index]? with
  | none =>
    have outside := getElem?_eq_none_iff.mp slot
    simp [outside]
  | some found =>
    obtain ⟨inside, _⟩ := List.getElem?_eq_some_iff.mp slot
    have noPage : found.isOwnPage = false := by
      have own := List.countP_eq_zero.mp noPages found (List.mem_of_getElem? slot)
      simpa using own
    rw [getElem?_replicate_of_lt inside, Option.map_some,
      Option.map_some, slotContent_of_noPage noPage]
    rfl

theorem Cloned.read (present : memory.objects[object]? = some parent)
    (nonvolatile : parent.isVolatile = false)
    (cloned : Cloned memory object parent later) (other index : Nat) :
    later.read zero other index =
      if other = memory.objects.length then memory.read zero object index
      else memory.read zero other index := by
  cases cloned with
  | prePurged isVolatile => simp [nonvolatile] at isVolatile
  | unwritten noPages =>
    let clone := ofSlots (replicate parent.physicalPages.length .sharedZeroPage) none
    have contents : (memory.addObject clone).slotContent zero =
        memory.slotContent zero := slotContent_congr rfl
    rw [read, slotAt_added rfl, contents]
    by_cases isClone : other = memory.objects.length
    · rw [if_pos isClone, if_pos isClone, read, slotAt_of_present present]
      exact unwritten_read noPages index
    · rw [if_neg isClone, if_neg isClone, read]
  | sharing _ _ set _ =>
    have contents : (memory.afterSharing object parent set).slotContent
        zero = memory.slotContent zero := slotContent_congr rfl
    rw [read, slotAt_sharing present, contents]
    by_cases isClone : other = memory.objects.length
    · rw [if_pos isClone, if_pos isClone, sharingClone_read, read, slotAt_of_present present]
    · rw [if_neg isClone, if_neg isClone, read]

theorem Cloned.length (cloned : Cloned memory object parent later) :
    later.objects.length = memory.objects.length + 1 := by
  cases cloned with
  | prePurged _ | unwritten _ => simp [addObject]
  | sharing _ _ set _ => simp [afterSharing]

theorem cowBitAt_added {after : AnonymousVMObject}
    (objects : later.objects = memory.objects ++ [after]) :
    later.cowBitAt other index =
      if other = memory.objects.length then after.cowBit index
      else memory.cowBitAt other index := by
  split_ifs with isNew
  · simp [cowBitAt, objects, isNew]
  · have same : later.objects[other]? = memory.objects[other]? := by
      rw [objects, getElem?_append]
      split_ifs with old
      · rfl
      · rw [getElem?_eq_none (by simp; omega), getElem?_eq_none (by omega)]
    rw [cowBitAt, cowBitAt, same]

/-- Parent and clone have the bits of all their pages set, and the bits of
other objects do not change. -/
theorem cowBitAt_afterSharing {set : CommittedPhysicalPageSet} {index id : Nat}
    (present : memory.objects[object]? = some parent)
    (place : (memory.afterSharing object parent set).slotAt other index = some (.page id)) :
    (memory.afterSharing object parent set).cowBitAt other index =
      if other = object ∨ other = memory.objects.length then true
      else memory.cowBitAt other index := by
  obtain ⟨inside, _⟩ := List.getElem?_eq_some_iff.mp present
  let middle := memory.setObject object (sharingParent parent memory.cowPools.length)
  have length : middle.objects.length = memory.objects.length := by simp [middle, setObject]
  have fresh : other = object ∨ other = memory.objects.length → ∀ current : AnonymousVMObject,
      current.cowMap = some parent.freshCowMap → current.cowBit index = true := by
    intro party current map
    rw [slotAt_sharing_party present party, slotAt_of_present present] at place
    simp [cowBit, map, freshCowMap, place, PageSlot.isOwnPage]
  rw [@cowBitAt_added _ middle _ _ _ _ rfl, length, cowBitAt_replaced inside rfl]
  by_cases isClone : other = memory.objects.length
  · simpa [isClone] using fresh (.inr isClone) _ (sharingClone_frame parent _).2.2
  by_cases isParent : other = object
  · rw [if_neg isClone, if_pos isParent, if_pos (.inl isParent)]
    exact fresh (.inl isParent) (sharingParent parent _) rfl
  · simp [isClone, isParent]

section

variable (guarded : memory.Guarded)

include guarded

theorem Guarded.added (pageCount : Nat) : (memory.addObject (ofSlots
      (replicate pageCount .sharedZeroPage) none)).Guarded := by
  let clone := ofSlots (replicate pageCount .sharedZeroPage) none
  have committed : clone.Committed := .of_none (count_lazy_of_empty pageCount)
  apply guarded.of_places (forall_mem_added guarded.committed rfl committed)
    (forall_mem_added guarded.nonvolatile rfl rfl)
  intro other index id place
  rw [slotAt_added rfl] at place
  split_ifs at place with isClone
  · have found := mem_of_getElem? place
    simp [ofSlots] at found
  · refine .inr ⟨place, fun set => ?_⟩
    rw [cowBitAt_added rfl, if_neg isClone, set]

theorem Guarded.shared (present : memory.objects[object]? = some parent)
    (set : CommittedPhysicalPageSet) : (memory.afterSharing object parent set).Guarded := by
  have member := mem_of_getElem? present
  have committed := guarded.committed parent member
  let middle := memory.setObject object (sharingParent parent memory.cowPools.length)
  have preserves : parent.Preserves
      (sharingParent parent memory.cowPools.length) := .of_same rfl rfl rfl
  have middleCommitted : ∀ current ∈ middle.objects, current.Committed :=
    forall_mem_replaced guarded.committed rfl (preserves.committed committed)
  have middleNonvolatile : ∀ current ∈ middle.objects, current.isVolatile = false :=
    forall_mem_replaced guarded.nonvolatile rfl (guarded.nonvolatile parent member)
  refine ⟨?_, ?_, ?_⟩
  · exact forall_mem_added middleCommitted rfl (sharingClone_committed committed)
  · exact forall_mem_added middleNonvolatile rfl (sharingClone_frame parent _).1
  intro first index other otherIndex id place otherPlace differ
  rw [cowBitAt_afterSharing present place]
  by_cases party : first = object ∨ first = memory.objects.length
  · rw [if_pos party]
  rw [if_neg party]
  obtain ⟨notParent, notClone⟩ := not_or.mp party
  rw [slotAt_sharing present, if_neg notClone] at place
  by_cases otherParty : other = object ∨ other = memory.objects.length
  · rw [slotAt_sharing_party present otherParty] at otherPlace
    exact guarded.guarded first index object otherIndex id place
      otherPlace (fun same => notParent same.1.symm)
  · obtain ⟨_, otherNotClone⟩ := not_or.mp otherParty
    rw [slotAt_sharing present, if_neg otherNotClone] at otherPlace
    exact guarded.guarded first index other otherIndex id place otherPlace differ

theorem Guarded.cloned (present : memory.objects[object]? = some parent)
    (cloned : Cloned memory object parent later) : later.Guarded := by
  cases cloned with
  | prePurged isVolatile =>
    have nonvolatile := guarded.nonvolatile parent (mem_of_getElem? present)
    simp [nonvolatile] at isVolatile
  | unwritten _ => exact guarded.added parent.physicalPages.length
  | sharing _ _ set _ => exact guarded.shared present set

end

end

section

variable {γ : Type} {zero : γ} {start memory later : AnonymousMemory γ}
variable {copies : List (List γ)}
variable {events : List (MemoryEvent γ)}

theorem entry_observed (object index : Nat) :
    entry (memory.observed zero) object index = memory.read zero object index := by
  simp only [entry, observed, read, slotAt, getElem?_map]
  cases memory.objects[object]? with
  | none => rfl
  | some current => simp

theorem Represents.observed : Represents zero memory (memory.observed zero) :=
  ⟨by simp [AnonymousMemory.observed], fun object index => (entry_observed object index).symm⟩

section

variable (models : Represents zero memory copies)

include models

theorem Represents.cloned (present : memory.objects[object]? = some parent)
    (nonvolatile : parent.isVolatile = false) (cloned : Cloned memory object parent later) :
    Represents zero later (MemoryEvent.apply copies (.clone object)) := by
  obtain ⟨inside, _⟩ := List.getElem?_eq_some_iff.mp present
  have copyInside : object < copies.length := by
    rw [← models.length]
    exact inside
  have copied : copies[object]? = some copies[object] := getElem?_eq_getElem copyInside
  have applied : MemoryEvent.apply copies (.clone object) = copies ++ [copies[object]] := by
    simp [MemoryEvent.apply]
  rw [applied]
  refine ⟨?_, ?_⟩
  · rw [cloned.length, models.length]
    simp
  intro other index
  rw [cloned.read present nonvolatile, entry_append_row, models.length]
  by_cases isClone : other = copies.length
  · rw [if_pos isClone, if_pos isClone, models.read, entry, copied]
    rfl
  · rw [if_neg isClone, if_neg isClone, models.read]

theorem Represents.kept (kept : Kept zero memory later) : Represents zero later copies :=
  ⟨kept.length.trans models.length, fun object index =>
    (kept.read object index).trans (models.read object index)⟩

theorem Represents.wrote (wrote : Wrote zero memory later object index change) :
    Represents zero later (MemoryEvent.apply copies (.write object index change)) := by
  refine ⟨?_, ?_⟩
  · rw [wrote.length, models.length]
    simp [MemoryEvent.apply]
  · intro other otherIndex
    rw [wrote.read, models.read, MemoryEvent.apply, entry_modify]

end

theorem Guarded.served (guarded : memory.Guarded) (fillFresh : memory.refCount fill.page = 0)
    (copyFresh : memory.refCount copy.page = 0) (differ : copy.page ≠ fill.page)
    (done : memory.write zero object index change fill copy = some (response, later)) :
    Served zero memory object index change response later := by
  obtain ⟨slot, place⟩ : ∃ slot, memory.slotAt object index = some slot := by
    simp only [AnonymousMemory.write, Option.bind_eq_bind, Option.bind_eq_some_iff] at done
    obtain ⟨current, present, slot, place, _⟩ := done
    exact ⟨slot, by rw [slotAt_of_present present, place]⟩
  obtain ⟨reply, result, written, served⟩ :=
    guarded.write place fillFresh copyFresh differ zero change
  rw [done] at written
  cases written
  exact served

theorem Represents.step (models : Represents zero memory copies)
    (guarded : memory.Guarded) (step : Step zero memory event later) :
    Represents zero later (MemoryEvent.apply copies event) ∧ later.Guarded := by
  cases step with
  | clone cloned =>
    obtain ⟨parent, present, effect⟩ := tryClone_effect cloned
    have nonvolatile := guarded.nonvolatile parent (mem_of_getElem? present)
    exact ⟨models.cloned present nonvolatile effect, guarded.cloned present effect⟩
  | cloneFailed _ => exact ⟨models, guarded⟩
  | write fillFresh copyFresh differ written =>
    rcases guarded.served fillFresh copyFresh differ written with
      ⟨_, wrote⟩ | ⟨stopped, _⟩
    · exact ⟨models.wrote wrote, wrote.guarded⟩
    · exact absurd rfl stopped
  | writeFailed fillFresh copyFresh differ stopped failed =>
    rcases guarded.served fillFresh copyFresh differ failed with
      ⟨continued, _⟩ | ⟨_, kept⟩
    · exact absurd continued stopped
    · exact ⟨models.kept kept, kept.guarded⟩

theorem Represents.run (models : Represents zero start copies)
    (guarded : start.Guarded) (run : Run zero start events later) :
    Represents zero later (events.foldl MemoryEvent.apply copies) ∧ later.Guarded := by
  induction run with
  | refl => exact ⟨models, guarded⟩
  | tail _ step ih =>
    rw [foldl_append]
    exact ih.1.step ih.2 step

/-- Objects that share nothing are cloned and written to in any order.  What
is observed through each of them is what independent copies of the memory,
made at the time of each clone, would hold; and every write to a page of an
object is answered. -/
theorem run_observes_copies (committed : ∀ current ∈ start.objects, current.Committed)
    (nonvolatile : ∀ current ∈ start.objects, current.isVolatile = false)
    (unshared : ∀ object index id,
      start.slotAt object index = some (.page id) → start.refCount id = 1)
    (run : Run zero start events later) :
    (∀ object index, later.read zero object index =
      entry (events.foldl MemoryEvent.apply (start.observed zero)) object index) ∧
    ∀ object index slot change fill copy, later.slotAt object index = some slot →
      later.refCount fill.page = 0 → later.refCount copy.page = 0 → copy.page ≠ fill.page →
      ∃ result, later.write zero object index change fill copy = some result := by
  have guarded : start.Guarded := by
    refine ⟨committed, nonvolatile, ?_⟩
    intro object index other otherIndex id place otherPlace differ
    exact absurd (place_unique (unshared object index id place) place otherPlace) differ
  obtain ⟨models, stillGuarded⟩ := Represents.observed.run guarded run
  refine ⟨models.read, ?_⟩
  intro object index slot change fill copy place fillFresh copyFresh differ
  obtain ⟨response, result, written, _⟩ :=
    stillGuarded.write place fillFresh copyFresh differ zero change
  exact ⟨(response, result), written⟩

end

def onePage : AnonymousMemory Nat := ⟨[ofSlots [.page 0, .sharedZeroPage] none], [], fun _ => 5⟩

def onePageForked : AnonymousMemory Nat :=
  onePage.afterSharing 0 (ofSlots [.page 0, .sharedZeroPage] none) ⟨1⟩

theorem onePage_unshared (object index id : Nat)
    (place : onePage.slotAt object index = some (.page id)) : onePage.refCount id = 1 := by
  match object, index with
  | 0, 0 =>
    cases place
    rfl
  | 0, 1 | 0, index + 2 | object + 1, index => cases place

/-- The clone is written to, and the parent keeps what it had. -/
theorem run_observes_copies_writtenClone :
    ∃ state : AnonymousMemory Nat, Run 0 onePage [.clone 0, .write 1 0 (· + 1)] state ∧
        state.read 0 0 0 = some 5 ∧ state.read 0 1 0 = some 6 := by
  have cloned : onePage.tryClone 0 true true = some (.ok onePageForked) := rfl
  have written : ∃ state, onePageForked.write 0 1 0 (· + 1)
      ⟨10, true, true, 1⟩ ⟨11, true, true, 1⟩ = some (.«continue», state) := ⟨_, rfl⟩
  obtain ⟨state, written⟩ := written
  have fork : Step 0 onePage (.clone 0) onePageForked := .clone cloned
  have write : Step 0 onePageForked (.write 1 0 (· + 1)) state := .write rfl rfl (by decide) written
  have run : Run 0 onePage [.clone 0, .write 1 0 (· + 1)] state := .tail (.tail .refl fork) write
  have observes := (run_observes_copies (List.forall_mem_singleton.mpr (.of_none rfl))
    (by decide) onePage_unshared run).1
  refine ⟨state, run, ?_, ?_⟩ <;> rw [observes] <;> rfl

end AnonymousMemory

end MixUpOS.Kernel.Memory
