import MixUpOS.Kernel.Memory.AnonymousMemoryFaults
import MixUpOS.Library.Tables

/-!
# Places of pages

The slots of all objects are a table with a row for each object, and the
reference count of a page is the number of its places in that table.
-/

namespace MixUpOS.Kernel.Memory

open Library

namespace AnonymousMemory

variable {γ : Type} {memory later : AnonymousMemory γ}
variable {index : Nat} {after : AnonymousVMObject}

theorem slotAt_eq_entry (memory : AnonymousMemory γ) (object index : Nat) :
    memory.slotAt object index = entry (memory.objects.map AnonymousVMObject.physicalPages) object
        index := by
  simp only [slotAt, entry, List.getElem?_map]
  cases memory.objects[object]? with
  | none | some current => rfl

theorem slotAt_of_present (present : memory.objects[object]? = some current) :
    memory.slotAt object index = current.physicalPages[index]? := by
  simp [slotAt, present]

theorem refCount_eq_occurrences (memory : AnonymousMemory γ) (id : Nat) :
    memory.refCount id = occurrences (memory.objects.map AnonymousVMObject.physicalPages)
        (.page id) := by
  rw [occurrences, List.map_map]
  rfl

section

variable {id : Nat}

section

variable (place : memory.slotAt object index = some (.page id))

include place

theorem refCount_pos : 0 < memory.refCount id := by
  rw [refCount_eq_occurrences]
  rw [slotAt_eq_entry] at place
  exact occurrences_pos_iff.mpr ⟨object, index, place⟩

theorem two_le_refCount (otherPlace : memory.slotAt other otherIndex = some (.page id))
    (differ : ¬ (object = other ∧ index = otherIndex)) : 2 ≤ memory.refCount id := by
  rw [refCount_eq_occurrences]
  rw [slotAt_eq_entry] at place otherPlace
  exact two_le_occurrences place otherPlace differ

theorem refCount_eq_one
    (only : ∀ other otherIndex, memory.slotAt other otherIndex = some (.page id) →
      other = object ∧ otherIndex = index) : memory.refCount id = 1 := by
  have pos := refCount_pos place
  have atMost : memory.refCount id ≤ 1 := by
    rw [refCount_eq_occurrences]
    apply occurrences_le_one
    intro other otherIndex present
    rw [← slotAt_eq_entry] at present
    exact only other otherIndex present
  omega

end

theorem slotAt_ne_of_refCount (fresh : memory.refCount id = 0) :
    memory.slotAt object index ≠ some (.page id) := by
  intro place
  have pos := refCount_pos place
  omega

theorem refCount_eq_zero (nowhere : ∀ other otherIndex,
    memory.slotAt other otherIndex ≠ some (.page id)) : memory.refCount id = 0 := by
  by_contra referenced
  rw [refCount_eq_occurrences] at referenced
  obtain ⟨other, otherIndex, place⟩ := occurrences_pos_iff.mp (Nat.pos_of_ne_zero referenced)
  rw [← slotAt_eq_entry] at place
  exact nowhere other otherIndex place

theorem place_unique (one : memory.refCount id = 1)
    (place : memory.slotAt object index = some (.page id))
    (otherPlace : memory.slotAt other otherIndex = some (.page id)) :
    other = object ∧ otherIndex = index := by
  by_contra differ
  have twice := two_le_refCount otherPlace place differ
  omega

end

theorem slotAt_replaced (objects : later.objects = memory.objects.set object after)
    (inside : object < memory.objects.length) :
    later.slotAt other otherIndex =
      if other = object then after.physicalPages[otherIndex]?
      else memory.slotAt other otherIndex := by
  by_cases same : other = object
  · subst same
    simp [slotAt, objects, inside]
  · simp [slotAt, objects, same, Ne.symm same]

theorem slotAt_replaced_same (present : memory.objects[object]? = some current)
    (objects : later.objects = memory.objects.set object after)
    (slots : after.physicalPages = current.physicalPages) :
    later.slotAt other otherIndex = memory.slotAt other otherIndex := by
  obtain ⟨inside, _⟩ := List.getElem?_eq_some_iff.mp present
  rw [slotAt_replaced objects inside]
  by_cases same : other = object
  · subst same
    rw [if_pos rfl, slots, slotAt_of_present present]
  · rw [if_neg same]

theorem slotAt_replaced_slot (present : memory.objects[object]? = some current)
    (place : current.physicalPages[index]? = some old)
    (objects : later.objects = memory.objects.set object after)
    (slots : after.physicalPages = (current.setSlot index slot).physicalPages) :
    later.slotAt other otherIndex =
      if other = object ∧ otherIndex = index then some slot
      else memory.slotAt other otherIndex := by
  obtain ⟨inside, _⟩ := List.getElem?_eq_some_iff.mp present
  obtain ⟨indexInside, _⟩ := List.getElem?_eq_some_iff.mp place
  rw [slotAt_replaced objects inside]
  by_cases same : other = object
  · subst same
    rw [slots, slotAt_of_present present]
    by_cases sameIndex : otherIndex = index
    · subst sameIndex
      simp [AnonymousVMObject.setSlot, indexInside]
    · simp [AnonymousVMObject.setSlot, sameIndex, Ne.symm sameIndex]
  · rw [if_neg same, if_neg (fun both => same both.1)]

theorem slotAt_added (objects : later.objects = memory.objects ++ [after]) :
    later.slotAt other otherIndex =
      if other = memory.objects.length then after.physicalPages[otherIndex]?
      else memory.slotAt other otherIndex := by
  rw [slotAt_eq_entry, slotAt_eq_entry, objects, List.map_append, List.map_singleton,
    entry_append_row, List.length_map]

section

variable {id : Nat}

theorem sharingClone_frame (parent : AnonymousVMObject) (pool : Nat) :
    (sharingClone parent pool).isVolatile = false ∧
      (sharingClone parent pool).sharedCommittedCowPages = some pool ∧
      (sharingClone parent pool).cowMap = some parent.freshCowMap := by
  cases unused : hasUnusedCommittedPages parent with
  | true => simp [sharingClone, unused, dropLazyPages, withSharedCow]
  | false => simp [sharingClone, unused, withSharedCow]

theorem sharingClone_page : (sharingClone parent pool).physicalPages[index]? = some (.page id) ↔
      parent.physicalPages[index]? = some (.page id) := by
  cases unused : hasUnusedCommittedPages parent with
  | false => simp [sharingClone, unused, withSharedCow]
  | true =>
    simp only [sharingClone, unused, if_true, dropLazyPages, withSharedCow, List.getElem?_map]
    cases slot : parent.physicalPages[index]? with
    | none => simp
    | some found =>
      cases found with
      | sharedZeroPage | lazyCommittedPage | page other => simp

theorem slotAt_sharing {set : CommittedPhysicalPageSet}
    (present : memory.objects[object]? = some parent) :
    (memory.afterSharing object parent set).slotAt other otherIndex =
      if other = memory.objects.length then
        (sharingClone parent memory.cowPools.length).physicalPages[otherIndex]?
      else memory.slotAt other otherIndex := by
  let middle := memory.setObject object (sharingParent parent memory.cowPools.length)
  have unmoved : middle.slotAt other otherIndex = memory.slotAt other otherIndex :=
    slotAt_replaced_same present rfl rfl
  have length : middle.objects.length = memory.objects.length := by simp [middle, setObject]
  rw [← unmoved, ← length]
  exact slotAt_added rfl

theorem slotAt_sharing_party {set : CommittedPhysicalPageSet}
    (present : memory.objects[object]? = some parent)
    (party : other = object ∨ other = memory.objects.length) :
    (memory.afterSharing object parent set).slotAt other otherIndex = some (.page id) ↔
      memory.slotAt object otherIndex = some (.page id) := by
  rw [slotAt_sharing present]
  split_ifs with isClone
  · rw [sharingClone_page, slotAt_of_present present]
  · rcases party with rfl | same
    · exact Iff.rfl
    · exact absurd same isClone

end

end AnonymousMemory

end MixUpOS.Kernel.Memory
