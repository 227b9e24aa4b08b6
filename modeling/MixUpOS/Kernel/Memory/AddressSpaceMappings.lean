import MixUpOS.Kernel.Memory.AddressSpace
import MixUpOS.Kernel.Memory.RegionTreeInvariant

/-!
# Address spaces as functions from addresses to mappings

What a process sees of its regions is which object is mapped at an address,
where in the object, and how.  Each operation of the address space is
described by what it does to this function.
-/

namespace MixUpOS.Kernel.Memory

open Library

/-- How one address is mapped. -/
structure Mapping where
  vmobject : VMObject
  offset : Nat
  access : Access
  memoryType : MemoryType
  shared : Bool
  stack : Bool
  syscallRegion : Bool
  mmap : Bool
  mmappedFromReadable : Bool
  mmappedFromWritable : Bool
deriving DecidableEq, Repr

/-- The address lies in the range. -/
def VirtualRange.Holds (range : VirtualRange) (address : Nat) : Prop :=
  range.base ≤ address ∧ address < range.stop

instance (range : VirtualRange) (address : Nat) : Decidable (range.Holds address) :=
  inferInstanceAs (Decidable (_ ∧ _))

/-- `offset_in_vmobject_from_vaddr` and the flags of the region. -/
def Region.mappingAt (region : Region) (address : Nat) : Mapping where
  vmobject := region.vmobject
  offset := (region.offsetInVMObject + addressDifference address region.base) % 2 ^ 64
  access := region.access
  memoryType := region.memoryType
  shared := region.shared
  stack := region.stack
  syscallRegion := region.syscallRegion
  mmap := region.mmap
  mmappedFromReadable := region.mmappedFromReadable
  mmappedFromWritable := region.mmappedFromWritable

namespace RegionTree

def mappingAt (tree : RegionTree) (address : Nat) : Option Mapping :=
  (Intervals.lookup Region.base Region.stop address tree.regions).map
    fun region => region.mappingAt address

section

variable {tree : RegionTree} {range : VirtualRange} {size : Nat}

theorem WellPlaced.mappingAt_of_mem (placed : WellPlaced tree)
    (member : region ∈ tree.regions) (holds : region.range.Holds address) :
    tree.mappingAt address = some (region.mappingAt address) := by
  have found := placed.separated.lookup_eq_some.mpr ⟨member, holds⟩
  rw [mappingAt, found]
  rfl

theorem mappingAt_eq_none : tree.mappingAt address = none ↔
    ∀ region ∈ tree.regions, ¬ region.range.Holds address := by
  rw [mappingAt, Option.map_eq_none_iff]
  exact Intervals.lookup_eq_none

section

variable (placed : WellPlaced tree)

include placed

theorem WellPlaced.mappingAt_insertAt
    (placeable : tree.Placeable size range) :
    (tree.insertAt region range).mappingAt address =
      if range.Holds address then
        some (Region.mappingAt { region with range := range } address)
      else tree.mappingAt address := by
  have nonempty : range.base < range.stop := by
    have pos := placeable.nonempty
    rw [← placeable.size_eq] at pos
    exact Nat.lt_add_of_pos_right pos
  have found : Intervals.lookup Region.base Region.stop address
      (tree.insertAt region range).regions =
        if range.Holds address then some { region with range := range }
        else Intervals.lookup Region.base Region.stop address tree.regions :=
    placed.separated.lookup_insert nonempty placeable.free.avoids
  rw [mappingAt, found]
  split <;> rfl

theorem WellPlaced.mappingAt_remove (member : region ∈ tree.regions) :
    (tree.remove region).1.mappingAt address =
      if region.range.Holds address then none
      else tree.mappingAt address := by
  have found : Intervals.lookup Region.base Region.stop address (tree.remove region).1.regions =
        if region.range.Holds address then none
        else Intervals.lookup Region.base Region.stop address tree.regions :=
    placed.separated.lookup_remove member
  rw [mappingAt, found]
  split <;> rfl

theorem WellPlaced.free_remove (member : region ∈ tree.regions) :
    (tree.remove region).1.Free region.base region.stop := by
  obtain ⟨above, below⟩ := placed.inside region member
  refine ⟨above, below, ?_⟩
  intro other otherMember
  obtain ⟨old, differ⟩ := placed.separated.mem_remove.mp otherMember
  rcases placed.separated.apart old member with rfl | before | after
  · exact absurd rfl differ
  · exact .inl before
  · exact .inr after

end

end

/-- From `tree` to `later` the mappings of the given regions are changed where
they lie in the range; everything else is as it was. -/
structure Rewritten (tree : RegionTree) (change : Mapping → Option Mapping)
    (range : VirtualRange) (regions : List Region) (later : RegionTree) :
    Prop where
  placed : later.WellPlaced
  total : later.totalRange = tree.totalRange
  others : ∀ region ∈ tree.regions, region ∉ regions → region ∈ later.regions
  inside : ∀ address, range.Holds address → (∃ region ∈ regions, region.range.Holds address) →
    later.mappingAt address = (tree.mappingAt address).bind change
  outside : ∀ address, (range.Holds address → ∀ region ∈ regions, ¬ region.range.Holds address) →
    later.mappingAt address = tree.mappingAt address

section

variable {range : VirtualRange} {regions : List Region}

theorem Rewritten.nil (placed : tree.WellPlaced) : Rewritten tree change range [] tree := by
  refine ⟨placed, rfl, ?_, ?_, ?_⟩
  · intro region member _
    exact member
  · intro address _ ⟨region, member, _⟩
    cases member
  · intro address _
    rfl

theorem Rewritten.cons (first : Rewritten tree change range [region] middle)
    (rest : Rewritten middle change range regions later)
    (apart : ∀ other ∈ regions, ∀ address, region.range.Holds address →
      ¬ other.range.Holds address) : Rewritten tree change range (region :: regions) later := by
  refine ⟨rest.placed, rest.total.trans first.total, ?_, ?_, ?_⟩
  · intro other member absent
    apply rest.others
    · apply first.others other member
      intro same
      exact absent (List.mem_cons.mpr (.inl (List.mem_singleton.mp same)))
    · intro inRest
      exact absent (List.mem_cons_of_mem _ inRest)
  · intro address inRange ⟨holder, member, holds⟩
    rcases List.mem_cons.mp member with rfl | inRest
    · have unchanged := rest.outside address fun _ other otherMember =>
        apart other otherMember address holds
      rw [unchanged]
      exact first.inside address inRange ⟨holder, by simp, holds⟩
    · have changed := rest.inside address inRange ⟨holder, inRest, holds⟩
      have before := first.outside address (by
        intro _ other otherMember otherHolds
        rw [List.mem_singleton.mp otherMember] at otherHolds
        exact apart holder inRest address otherHolds holds)
      rw [changed, before]
  · intro address absent
    have after := rest.outside address fun inRange => (List.forall_mem_cons.mp (absent inRange)).2
    have before := first.outside address (by
      intro inRange other member
      rw [List.mem_singleton.mp member]
      exact absent inRange region List.mem_cons_self)
    rw [after, before]

end

end RegionTree

end MixUpOS.Kernel.Memory
