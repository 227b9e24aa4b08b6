import MixUpOS.Kernel.Memory.AnonymousVMObject
import MixUpOS.Kernel.Memory.RegionTreeInvariant
import MixUpOS.Kernel.Syscalls.Mmap

/-!
# Allocating regions

`allocate_region` and `allocate_region_with_vmobject` place a region in the
tree before they map it, so an error of the mapping comes after the tree was
changed.  An error carries the region that is in scope when the call returns:
its destructor verifies that the region is not in a tree.
-/

namespace MixUpOS.Kernel.Memory

open AK Library Library.Programs RegionTree
open Kernel.Syscalls

/-- The arguments that both functions take; `random` are the words that
`get_fast_random` returns. -/
structure AllocationRequest where
  randomize : RandomizeVirtualAddress
  random : Nat → Nat
  requestedAddress : Nat
  requestedSize : Nat
  requestedAlignment : Nat
  name : Option String
  prot : BitVec 32

/-- The object that `allocate_region` creates: what the memory manager answers
while it is made, and its identity. -/
structure ObjectAnswers where
  committed : Bool
  granted : Bool
  pages : Nat → Nat
  object : Nat

/-- The object that `allocate_region_with_vmobject` is given, and how it is
mapped. -/
structure ObjectMapping where
  vmobject : VMObject
  vmobjectSize : Nat
  offsetInVMObject : Nat
  shared : Bool
  memoryType : MemoryType

/-- A command whose errors come with the region in scope. -/
abbrev ScopedCommand := Program AddressSpace (ErrNo × Option Region)

namespace AddressSpace

/-! ## The functions -/

def inScope {α : Type} (owned : Option Region) (command : Command α) : ScopedCommand α :=
  mapErrors (fun code => (code, owned)) command

/-- `VERIFY(!is_in_tree())` in the destructor of a region's tree node. -/
def destructible (tree : RegionTree) : Option Region → Bool
  | none => true
  | some region => decide (region ∉ tree.regions)

/-- The return from a call, which destroys the region in scope after an
error. -/
def returning {α : Type} (statements : ScopedCommand α) : Command α := ExceptT.mk fun space =>
    (outcome statements space).bind fun (result, later) =>
      match result with
      | .ok value => some (.ok value, later)
      | .error (code, owned) =>
        if destructible later.regionTree owned then
          some (.error code, later)
        else none

/-- `KString::try_create` of a name that is not null. -/
def createName (name : Option String) : Command Unit :=
  if name.isSome then requestMemory else pure ()

def createAnonymousObject (size : Nat) (strategy : AllocationStrategy)
    (answers : ObjectAnswers) : Command VMObject := do
  let created ← asserted (AnonymousVMObject.tryCreateWithSize size strategy
    answers.committed answers.granted answers.pages)
  fallible (created.map fun _ => ⟨answers.object, .anonymous⟩)

/-- The range that `place_anywhere` or `place_specifically` gives. -/
def allocateRange (tree : RegionTree) (request : AllocationRequest)
    (size alignment : Nat) : Option (ErrorOr VirtualRange) :=
  if request.requestedAddress = 0 then
    match request.randomize with
    | .yes => tree.allocateRangeRandomized size alignment request.random
    | .no => tree.allocateRangeAnywhere size alignment
  else tree.allocateRangeSpecific request.requestedAddress size

def placeRegion (request : AllocationRequest) (size alignment : Nat)
    (region : Region) : Command Region := do
  let tree ← readTree
  let allocated ← asserted (allocateRange tree request size alignment)
  let range ← fallible allocated
  writeTree (tree.insertAt region range)
  return { region with range := range }

/-- A region that is not placed yet, with its size and alignment. -/
structure Unplaced where
  region : Region
  size : Nat
  alignment : Nat

/-- `allocate_region` up to the placement. -/
def prepareRegion (request : AllocationRequest)
    (strategy : AllocationStrategy) (answers : ObjectAnswers) :
    Command Unplaced := do
  refuseIf (request.requestedAddress % pageSize != 0) .EINVAL
  let size ← fallible (pageRoundUp request.requestedSize)
  let alignment ← fallible (pageRoundUp request.requestedAlignment)
  createName request.name
  let vmobject ← createAnonymousObject size strategy answers
  requestMemory
  return ⟨Region.createUnplaced vmobject 0 request.name
    (protToRegionAccessFlags request.prot) .normal false, size, alignment⟩

/-- The statements that both functions share: prepare a region, place it, and
finish with a mapping. -/
def placing (request : AllocationRequest) (prepare : Command Unplaced)
    (finish : Region → Command Unit) : ScopedCommand Region := do
  let unplaced ← inScope none prepare
  let region ← inScope (some unplaced.region)
    (placeRegion request unplaced.size unplaced.alignment unplaced.region)
  inScope (some region) (finish region)
  return region

/-- The statements of `allocate_region`. -/
def allocateRegionStatements (boot : BootInfo) (request : AllocationRequest)
    (strategy : AllocationStrategy) (answers : ObjectAnswers) : ScopedCommand Region :=
  placing request (prepareRegion request strategy answers) (map boot)

def allocateRegion (boot : BootInfo) (request : AllocationRequest)
    (strategy : AllocationStrategy) (answers : ObjectAnswers) : Command Region :=
  returning (allocateRegionStatements boot request strategy answers)

/-- `allocate_region_with_vmobject` up to the placement. -/
def prepareRegionWithVMObject (request : AllocationRequest)
    (object : ObjectMapping) : Command Unplaced := do
  refuseIf (request.requestedAddress % pageSize != 0) .EINVAL
  let size ← fallible (pageRoundUp request.requestedSize)
  let alignment ← fallible (pageRoundUp request.requestedAlignment)
  let endInVMObject := object.offsetInVMObject + request.requestedSize
  refuseIf (decide (2 ^ 64 ≤ endInVMObject)) .EOVERFLOW
  refuseIf (decide (object.vmobjectSize ≤ object.offsetInVMObject)) .EINVAL
  refuseIf (decide (object.vmobjectSize < endInVMObject)) .EINVAL
  let offsetInVMObject := object.offsetInVMObject / pageSize * pageSize
  createName request.name
  requestMemory
  return ⟨Region.createUnplaced object.vmobject offsetInVMObject request.name
    (protToRegionAccessFlags request.prot) object.memoryType object.shared,
    size, alignment⟩

/-- The mapping of a region, which `PROT_NONE` does not need. -/
def mapUnlessProtNone (boot : BootInfo) (prot : BitVec 32) (region : Region) : Command Unit :=
  if prot = 0 then pure () else map boot region

/-- The guard `remove_region_from_tree_on_failure`. -/
def removeRegionFromTree (region : Region) (space : AddressSpace) : AddressSpace :=
  { space with regionTree := (space.regionTree.remove region).1 }

/-- The statements of `allocate_region_with_vmobject`. -/
def allocateRegionWithVMObjectStatements (boot : BootInfo)
    (request : AllocationRequest) (object : ObjectMapping) : ScopedCommand Region :=
  placing request (prepareRegionWithVMObject request object) fun region =>
    onError (mapUnlessProtNone boot request.prot region) (removeRegionFromTree region)

/-! ## What the steps leave alone -/

theorem requestMemory_leaves : Leaves regionTree requestMemory := by
  intro space result later reached
  change (if space.memory 0 then _ else _) = _ at reached
  split at reached
  · cases reached
    rfl
  · cases reached
    rfl

theorem createName_leaves (name : Option String) : Leaves regionTree (createName name) := by
  unfold createName
  split
  · exact requestMemory_leaves
  · exact .pure ()

theorem prepareRegion_leaves : Leaves regionTree (prepareRegion request strategy answers) := by
  apply Leaves.bind (.fallible _)
  intro _
  apply Leaves.bind (.fallible _)
  intro size
  apply Leaves.bind (.fallible _)
  intro alignment
  apply Leaves.bind (createName_leaves _)
  intro _
  apply Leaves.bind
  · apply Leaves.bind (.asserted _)
    intro created
    exact .fallible _
  · intro vmobject
    apply Leaves.bind requestMemory_leaves
    intro _
    exact .pure _

theorem prepareRegionWithVMObject_leaves :
    Leaves regionTree (prepareRegionWithVMObject request object) := by
  apply Leaves.bind (.fallible _)
  intro _
  apply Leaves.bind (.fallible _)
  intro size
  apply Leaves.bind (.fallible _)
  intro alignment
  apply Leaves.bind (.fallible _)
  intro _
  apply Leaves.bind (.fallible _)
  intro _
  apply Leaves.bind (.fallible _)
  intro _
  apply Leaves.bind (createName_leaves _)
  intro _
  apply Leaves.bind requestMemory_leaves
  intro _
  exact .pure _

theorem mapPages_leaves (pages : List Nat) : Leaves regionTree (mapPages boot region pages) := by
  induction pages with
  | nil => exact .pure ()
  | cons page rest ih =>
    apply Leaves.bind (.asserted _)
    intro _
    apply Leaves.bind requestMemory_leaves
    intro _
    exact ih

theorem map_leaves : Leaves regionTree (map boot region) := by
  apply Leaves.bind (.asserted _)
  intro _
  apply Leaves.bind (.fallible _)
  intro _
  exact mapPages_leaves _

theorem mapUnlessProtNone_leaves : Leaves regionTree (mapUnlessProtNone boot prot region) := by
  unfold mapUnlessProtNone
  split
  · exact .pure ()
  · exact map_leaves

/-! ## Placing a region -/

section

variable {request : AllocationRequest} {size : Nat} {region : Region}

theorem outcome_placeRegion : outcome (placeRegion request size alignment region) space =
      (allocateRange space.regionTree request size alignment).map fun
        | .ok range => (.ok { region with range := range },
            { space with regionTree := space.regionTree.insertAt region range })
        | .error code => (.error code, space) := by
  change outcome (asserted (allocateRange space.regionTree request size
    alignment) >>= _) space = _
  cases allocateRange space.regionTree request size alignment with
  | none => rfl
  | some result =>
    cases result with
    | ok range => rfl
    | error code => rfl

theorem placeRegion_ok :
    outcome (placeRegion request size alignment region) space = some (.ok placed, later) ↔
      ∃ range, allocateRange space.regionTree request size alignment = some (.ok range) ∧
        placed = { region with range := range } ∧
        later = { space with
          regionTree := space.regionTree.insertAt region range } := by
  rw [outcome_placeRegion, Option.map_eq_some_iff]
  constructor
  · rintro ⟨_ | range, allocated, ⟨⟩⟩
    exact ⟨range, allocated, rfl, rfl⟩
  · rintro ⟨range, allocated, rfl, rfl⟩
    exact ⟨.ok range, allocated, rfl⟩

end

end AddressSpace

namespace RegionTree

section

variable {tree : RegionTree} {size : Nat} {range : VirtualRange}

theorem searchWindows_window {regions : List Region}
    (found : searchWindows size alignment regions windowStart = .inl range) :
    ∃ window, allocateFromWindow size alignment window = some range := by
  induction regions generalizing windowStart with
  | nil => cases found
  | cons region rest ih =>
    rw [searchWindows] at found
    dsimp only at found
    split at found
    · exact ih found
    · split at found
      next chosen window =>
        cases found
        exact ⟨_, window⟩
      next => exact ih found

theorem allocateRangeAnywhere_window
    (success : tree.allocateRangeAnywhere size alignment = some (.ok range)) :
    0 < size ∧ ∃ window, allocateFromWindow size alignment window = some range := by
  unfold allocateRangeAnywhere at success
  split at success
  · cases success
  next nonzero =>
    refine ⟨Nat.pos_of_ne_zero nonzero, ?_⟩
    obtain ⟨_, _, pages⟩ := Option.bind_eq_some_iff.mp success
    obtain ⟨_, _, checked⟩ := Option.bind_eq_some_iff.mp pages
    split at checked
    · cases checked
    dsimp only at checked
    split at checked
    next chosen window =>
      cases checked
      exact searchWindows_window window
    next windowStart _ =>
      split at checked
      · split at checked
        next chosen window =>
          cases checked
          exact ⟨_, window⟩
        next => cases checked
      · cases checked

theorem allocateFromWindow_eq (found : allocateFromWindow size alignment window = some range) :
    range = ⟨roundUpToPowerOfTwo window.base alignment, size⟩ := by
  unfold allocateFromWindow at found
  split at found
  · cases found
  · cases found
    rfl

/-- With an alignment of zero every window gives address zero. -/
theorem allocateRangeAnywhere_zero
    (success : tree.allocateRangeAnywhere size 0 = some (.ok range)) : range.base = 0 := by
  obtain ⟨_, window, found⟩ := allocateRangeAnywhere_window success
  rw [allocateFromWindow_eq found]
  simp [roundUpToPowerOfTwo]

/-- No region has the given base. -/
def Unused (tree : RegionTree) (base : Nat) : Prop := ∀ region ∈ tree.regions, region.base ≠ base

theorem WellPlaced.unused (placed : WellPlaced tree)
    (placeable : tree.Placeable size range) : tree.Unused range.base := by
  intro region member same
  have regionNonempty : region.base < region.stop := placed.separated.nonempty region member
  have rangeNonempty := placeable.nonempty
  have avoids := placeable.free.avoids region member
  rw [← placeable.size_eq] at rangeNonempty
  unfold Intervals.Avoids VirtualRange.stop at avoids
  omega

end

end RegionTree

theorem pageRoundUp_ok (success : pageRoundUp value = .ok rounded) :
    rounded < 2 ^ 64 ∧ rounded % pageSize = 0 := by
  unfold pageRoundUp at success
  split at success
  · cases success
  next small =>
    cases success
    refine ⟨Nat.mod_lt _ (by decide), ?_⟩
    have pages : pageSize ∣ 2 ^ 64 := by decide
    rw [Nat.mod_mod_of_dvd _ pages, Nat.mul_mod_left]

namespace AddressSpace

/-! ## Requests for memory -/

/-- The address space after a number of requests for memory. -/
def after (space : AddressSpace) (count : Nat) : AddressSpace :=
  { space with memory := fun index => space.memory (index + count) }

theorem after_after (space : AddressSpace) (first second : Nat) :
    (space.after first).after second = space.after (first + second) := by
  unfold after
  congr 1
  funext index
  change space.memory _ = space.memory _
  congr 1
  omega

/-- The requests that a name takes. -/
def nameRequests (name : Option String) : Nat :=
  if name.isSome then 1 else 0

section

variable {space : AddressSpace} {request : AllocationRequest} {strategy : AllocationStrategy}
  {answers : ObjectAnswers}

theorem requestMemory_ok : outcome requestMemory space = some (.ok nothing, later) ↔
      space.memory 0 = true ∧ later = space.after 1 := by
  change (if space.memory 0 then _ else _) = _ ↔ _
  split
  next granted =>
    simp only [Option.some.injEq, Prod.mk.injEq, true_and, granted]
    exact eq_comm
  next refused => simp [refused]

theorem createName_ok : outcome (createName name) space = some (.ok nothing, later) ↔
      (name.isSome = true → space.memory 0 = true) ∧ later = space.after (nameRequests name) := by
  unfold createName nameRequests
  split
  next named =>
    rw [requestMemory_ok]
    simp [named]
  next unnamed =>
    change some (Except.ok (), space) = _ ↔ _
    simp only [Option.some.injEq, Prod.mk.injEq, true_and, unnamed,
      Bool.false_eq_true, false_implies]
    exact eq_comm

/-- What `allocate_region` needs before it places the region. -/
structure Prepares (space : AddressSpace) (request : AllocationRequest)
    (strategy : AllocationStrategy) (answers : ObjectAnswers)
    (size alignment : Nat) : Prop where
  aligned : request.requestedAddress % pageSize = 0
  size_eq : pageRoundUp request.requestedSize = .ok size
  alignment_eq : pageRoundUp request.requestedAlignment = .ok alignment
  named : request.name.isSome = true → space.memory 0 = true
  created : ∃ object, AnonymousVMObject.tryCreateWithSize size strategy
    answers.committed answers.granted answers.pages = some (.ok object)
  granted : space.memory (nameRequests request.name) = true

/-- The region that `allocate_region` places. -/
def newRegion (request : AllocationRequest) (answers : ObjectAnswers) : Region :=
  Region.createUnplaced ⟨answers.object, .anonymous⟩ 0 request.name
    (protToRegionAccessFlags request.prot) .normal false

theorem createAnonymousObject_ok :
    outcome (createAnonymousObject size strategy answers) space = some (.ok vmobject, later) ↔
      (∃ object, AnonymousVMObject.tryCreateWithSize size strategy
        answers.committed answers.granted answers.pages = some (.ok object)) ∧
        vmobject = ⟨answers.object, .anonymous⟩ ∧ later = space := by
  unfold createAnonymousObject
  simp only [outcome_bind_ok, outcome_asserted_ok, outcome_fallible_ok]
  constructor
  · rintro ⟨created, middle, ⟨success, rfl⟩, mapped, rfl⟩
    cases created with
    | error code => cases mapped
    | ok object =>
      cases mapped
      exact ⟨⟨object, success⟩, rfl, rfl⟩
  · rintro ⟨⟨object, success⟩, rfl, rfl⟩
    exact ⟨.ok object, later, ⟨success, rfl⟩, rfl, rfl⟩

theorem prepareRegion_ok {unplaced : Unplaced} :
    outcome (prepareRegion request strategy answers) space = some (.ok unplaced, later) ↔
      Prepares space request strategy answers unplaced.size unplaced.alignment ∧
        unplaced.region = newRegion request answers ∧
        later = space.after (nameRequests request.name + 1) := by
  unfold prepareRegion
  simp only [outcome_bind_ok, outcome_refuseIf_ok, outcome_fallible_ok,
    createName_ok, createAnonymousObject_ok, requestMemory_ok]
  constructor
  · rintro ⟨_, _, ⟨aligned, rfl⟩, size, _, ⟨sizeEq, rfl⟩, alignment, _,
      ⟨alignmentEq, rfl⟩, _, _, ⟨named, rfl⟩, _, _, ⟨created, rfl, rfl⟩,
      _, _, ⟨granted, rfl⟩, ⟨⟩⟩
    refine ⟨⟨?_, sizeEq, alignmentEq, named, created, ?_⟩, rfl, ?_⟩
    · simpa using aligned
    · simpa [after] using granted
    · exact after_after _ _ _
  · rintro ⟨prepares, regionEq, rfl⟩
    obtain ⟨region, size, alignment⟩ := unplaced
    cases regionEq
    have refused : (request.requestedAddress % pageSize != 0) = false := by
      simpa using prepares.aligned
    have granted : (space.after (nameRequests request.name)).memory 0 = true := by
      simpa [after] using prepares.granted
    refine ⟨(), _, ⟨refused, rfl⟩, size, _, ⟨prepares.size_eq, rfl⟩,
      alignment, _, ⟨prepares.alignment_eq, rfl⟩, (), _,
      ⟨prepares.named, rfl⟩, _, _, ⟨prepares.created, rfl, rfl⟩, (), _,
      ⟨granted, rfl⟩, ?_⟩
    rw [after_after]
    rfl

/-- A mapping succeeds if all its requests are granted, and fails with
`ENOMEM` if one is refused. -/
theorem mapPages_outcome (plain : region.mmap = false) (pages : List Nat) (space : AddressSpace) :
    ∃ later, outcome (mapPages boot region pages) space =
      some (if ∀ index < pages.length, space.memory index = true then .ok ()
        else .error .ENOMEM, later) := by
  induction pages generalizing space with
  | nil => exact ⟨space, by rfl⟩
  | cons page rest ih =>
    have start : outcome (mapPages boot region (page :: rest)) space =
        outcome (requestMemory >>= fun _ => mapPages boot region rest) space := by
      rw [mapPages, plain]
      rfl
    rw [start]
    cases first : space.memory 0 with
    | false =>
      obtain ⟨later, failure⟩ : ∃ later,
          outcome requestMemory space = some (.error .ENOMEM, later) := by
        refine ⟨space.after 1, ?_⟩
        change (if space.memory 0 then _ else _) = _
        rw [first]
        rfl
      refine ⟨later, ?_⟩
      have refused : ¬ ∀ index < (page :: rest).length, space.memory index = true := by
        intro granted
        have atFirst := granted 0 (Nat.succ_pos _)
        rw [first] at atFirst
        cases atFirst
      rw [if_neg refused]
      exact outcome_bind_error.mpr (.inl failure)
    | true =>
      obtain ⟨later, result⟩ := ih (space.after 1)
      refine ⟨later, ?_⟩
      rw [outcome_bind, (@requestMemory_ok space _ ()).mpr ⟨first, rfl⟩]
      simp only [List.length_cons, Nat.forall_lt_succ_left, first, true_and]
      exact result

theorem map_outcome (plain : region.mmap = false) (anonymous : region.vmobject.kind = .anonymous)
    (pages : 0 < region.range.size / pageSize) (space : AddressSpace) :
    ∃ later, outcome (map boot region) space =
      some (if ∀ index < region.range.size / pageSize, space.memory index = true then .ok ()
        else .error .ENOMEM, later) := by
  have unshared : region.vmobject.isSharedInode = false := by
    rw [VMObject.isSharedInode, anonymous]
    rfl
  have nonempty : (region.range.size / pageSize == 0) = false := by simpa using Nat.ne_of_gt pages
  have start : outcome (map boot region) space = outcome (mapPages boot region
        (List.range (region.range.size / pageSize))) space := by
    rw [map, unshared, Bool.and_false, nonempty]
    rfl
  rw [start]
  simpa using mapPages_outcome plain (List.range (region.range.size / pageSize)) space

end

/-! ## Failed allocations -/

/-- Whenever a step fails, the tree is the one before the call when the call
returns, and the call does return the error. -/
def Intact {α : Type} (statements : ScopedCommand α) (space : AddressSpace) : Prop :=
  ∀ failure later, outcome statements space = some (.error failure, later) →
    later.regionTree = space.regionTree ∧
      outcome (returning statements) space = some (.error failure.1, later)

/-- If `allocate_region` comes to the mapping, each of its pages gets the
memory for its page table. -/
def MappingGranted (space : AddressSpace) (request : AllocationRequest)
    (strategy : AllocationStrategy) (answers : ObjectAnswers) : Prop :=
  ∀ size alignment range, Prepares space request strategy answers size alignment →
    allocateRange space.regionTree request size alignment = some (.ok range) →
    ∀ page < size / pageSize, space.memory (page + (nameRequests request.name + 1)) = true

section

variable {space later : AddressSpace} {boot : BootInfo}
  {request : AllocationRequest} {strategy : AllocationStrategy}
  {answers : ObjectAnswers} {object : ObjectMapping} {region : Region}

theorem destructible_unplaced (placed : tree.WellPlaced) (empty : region.range = ⟨0, 0⟩) :
    destructible tree (some region) = true := by
  apply decide_eq_true
  intro member
  have nonempty : region.base < region.stop := placed.separated.nonempty region member
  unfold Region.base Region.stop VirtualRange.stop at nonempty
  rw [empty] at nonempty
  exact absurd nonempty (by decide)

/-- A range comes from the address of the request, a random one or the first window. -/
theorem allocateRange_cases
    (success : allocateRange tree request size alignment = some (.ok range)) :
    (∃ base, (request.requestedAddress < 2 ^ 64 → base < 2 ^ 64) ∧
        tree.allocateRangeSpecific base size = some (.ok range)) ∨
      tree.allocateRangeAnywhere size alignment = some (.ok range) := by
  unfold allocateRange at success
  split at success
  · split at success
    · rcases allocateRangeRandomized_cases success with ⟨base, word, specific⟩ | anywhere
      · exact .inl ⟨base, fun _ => word, specific⟩
      · exact .inr anywhere
    · exact .inr success
  · exact .inl ⟨_, id, success⟩

/-- Where a call can fail. -/
inductive PlacingFailure (request : AllocationRequest)
    (prepare : Command Unplaced) (finish : Region → Command Unit)
    (space later : AddressSpace) : ErrNo × Option Region → Prop where
  | prepare {code : ErrNo} : outcome prepare space = some (.error code, later) →
      PlacingFailure request prepare finish space later (code, none)
  | place {unplaced : Unplaced} {middle : AddressSpace} {code : ErrNo} :
      outcome prepare space = some (.ok unplaced, middle) →
      outcome (placeRegion request unplaced.size unplaced.alignment
        unplaced.region) middle = some (.error code, later) →
      PlacingFailure request prepare finish space later (code, some unplaced.region)
  | finish {unplaced : Unplaced} {middle placed : AddressSpace} {region : Region} {code : ErrNo} :
      outcome prepare space = some (.ok unplaced, middle) →
      outcome (placeRegion request unplaced.size unplaced.alignment
        unplaced.region) middle = some (.ok region, placed) →
      outcome (finish region) placed = some (.error code, later) →
      PlacingFailure request prepare finish space later (code, some region)

theorem placing_error {prepare : Command Unplaced}
    {finish : Region → Command Unit} {failure : ErrNo × Option Region} :
    outcome (placing request prepare finish) space = some (.error failure, later) ↔
      PlacingFailure request prepare finish space later failure := by
  unfold placing inScope
  simp only [outcome_bind_error, outcome_mapErrors_ok, outcome_mapErrors_error]
  constructor
  · rintro (⟨code, prepared, rfl⟩ | ⟨unplaced, middle, prepared,
      ⟨code, failed, rfl⟩ | ⟨region, placed, success, ⟨code, failed, rfl⟩ | ⟨_, _, _, ⟨⟩⟩⟩⟩)
    · exact .prepare prepared
    · exact .place prepared failed
    · exact .finish prepared success failed
  · intro failed
    cases failed with
    | prepare prepared => exact .inl ⟨_, prepared, rfl⟩
    | place prepared failed => exact .inr ⟨_, _, prepared, .inl ⟨_, failed, rfl⟩⟩
    | finish prepared success failed =>
      exact .inr ⟨_, _, prepared, .inr ⟨_, _, success, .inl ⟨_, failed, rfl⟩⟩⟩

/-- What both functions establish before they place a region. -/
structure PreparesRegions (prepare : Command Unplaced) : Prop where
  leaves : Leaves regionTree prepare
  unplaced : ∀ space unplaced later, outcome prepare space = some (.ok unplaced, later) →
    unplaced.region.range = ⟨0, 0⟩ ∧ (unplaced.size < 2 ^ 64 ∧ unplaced.size % pageSize = 0) ∧
      unplaced.alignment % pageSize = 0

theorem prepareRegion_prepares : PreparesRegions (prepareRegion request strategy answers) := by
  refine ⟨prepareRegion_leaves, ?_⟩
  intro space unplaced later success
  obtain ⟨prepares, regionEq, _⟩ := prepareRegion_ok.mp success
  rw [regionEq]
  exact ⟨rfl, pageRoundUp_ok prepares.size_eq, (pageRoundUp_ok prepares.alignment_eq).2⟩

theorem prepareRegionWithVMObject_prepares :
    PreparesRegions (prepareRegionWithVMObject request object) := by
  refine ⟨prepareRegionWithVMObject_leaves, ?_⟩
  intro space unplaced later success
  unfold prepareRegionWithVMObject at success
  simp only [outcome_bind_ok, outcome_refuseIf_ok, outcome_fallible_ok] at success
  obtain ⟨_, _, _, size, _, ⟨sizeEq, rfl⟩, alignment, _, ⟨alignmentEq, rfl⟩,
    _, _, _, _, _, _, _, _, _, _, _, _, _, _, _, ⟨⟩⟩ := success
  exact ⟨rfl, pageRoundUp_ok sizeEq, (pageRoundUp_ok alignmentEq).2⟩

/-- A call is intact if a failed finish takes back the insertion. -/
theorem placing_intact {prepare : Command Unplaced} {finish : Region → Command Unit}
    (placed : space.regionTree.WellPlaced) (prepares : PreparesRegions prepare)
    (undone : ∀ unplaced middle range code last,
      outcome prepare space = some (.ok unplaced, middle) →
      allocateRange space.regionTree request unplaced.size unplaced.alignment = some (.ok range) →
      outcome (finish { unplaced.region with range := range })
        { middle with regionTree := space.regionTree.insertAt unplaced.region range } =
          some (.error code, last) →
      last.regionTree = space.regionTree ∧ destructible space.regionTree
          (some { unplaced.region with range := range }) = true) :
    Intact (placing request prepare finish) space := by
  intro failure later failed
  have restored : later.regionTree = space.regionTree ∧
      destructible space.regionTree failure.2 = true := by
    cases placing_error.mp failed with
    | prepare prepared => exact ⟨prepares.leaves _ _ _ prepared, rfl⟩
    | place prepared placing =>
      have same := prepares.leaves _ _ _ prepared
      rw [outcome_placeRegion] at placing
      obtain ⟨result, _, isLater⟩ := Option.map_eq_some_iff.mp placing
      cases result with
      | ok range => cases isLater
      | error other =>
        cases isLater
        exact ⟨same, destructible_unplaced placed (prepares.unplaced _ _ _ prepared).1⟩
    | finish prepared placing finishing =>
      have same := prepares.leaves _ _ _ prepared
      obtain ⟨range, allocated, rfl, rfl⟩ := placeRegion_ok.mp placing
      rw [same] at allocated finishing
      exact undone _ _ _ _ _ prepared allocated finishing
  refine ⟨restored.1, ?_⟩
  change (outcome _ space).bind _ = _
  rw [failed]
  simp [restored]

theorem allocateRegionWithVMObject_intact (placed : space.regionTree.WellPlaced)
    (above : 0 < space.regionTree.totalRange.base) (word : request.requestedAddress < 2 ^ 64) :
    Intact (allocateRegionWithVMObjectStatements boot request object) space := by
  apply placing_intact placed prepareRegionWithVMObject_prepares
  intro unplaced middle range code last prepared allocated failed
  obtain ⟨_, sizeRounded, alignmentPages⟩ :=
    prepareRegionWithVMObject_prepares.unplaced _ _ _ prepared
  have unused : space.regionTree.Unused range.base := by
    rcases allocateRange_cases allocated with ⟨base, baseWord, specific⟩ | anywhere
    · exact placed.unused (placed.allocateRangeSpecific_ok (baseWord word) sizeRounded.1 specific).1
    · rcases Nat.eq_zero_or_pos unplaced.alignment with isZero | pos
      · -- An alignment of zero leads to the address zero.
        intro region member same
        have inside := (placed.inside region member).1
        rw [isZero] at anywhere
        rw [same, allocateRangeAnywhere_zero anywhere] at inside
        omega
      · exact placed.unused
          (placed.allocateRangeAnywhere_ok sizeRounded.2 alignmentPages pos anywhere)
  obtain ⟨later, mapping, rfl⟩ := outcome_onError_error.mp failed
  have same := mapUnlessProtNone_leaves _ _ _ mapping
  refine ⟨?_, decide_eq_true fun member => unused _ member rfl⟩
  change (later.regionTree.remove _).1 = _
  rw [same]
  exact congrArg (RegionTree.mk _) (Intervals.remove_insert unused)

theorem map_newRegion (middle : AddressSpace) {size alignment : Nat} {range : VirtualRange}
    (prepares : Prepares space request strategy answers size alignment)
    (allocated : allocateRange space.regionTree request size alignment = some (.ok range)) :
    ∃ later, outcome (map boot { newRegion request answers with range := range }) middle =
      some (if ∀ page < size / pageSize, middle.memory page = true then .ok ()
        else .error .ENOMEM, later) := by
  obtain ⟨nonempty, sizeEq⟩ : 0 < size ∧ range.size = size := by
    rcases allocateRange_cases allocated with ⟨base, _, specific⟩ | anywhere
    · obtain ⟨pos, _, _, rfl⟩ := allocateRangeSpecific_checked specific
      exact ⟨pos, rfl⟩
    · obtain ⟨nonempty, window, found⟩ := allocateRangeAnywhere_window anywhere
      rw [allocateFromWindow_eq found]
      exact ⟨nonempty, rfl⟩
  have pages : 0 < size / pageSize := by
    have rounded := (pageRoundUp_ok prepares.size_eq).2
    have pos : 0 < pageSize := by decide
    exact Nat.div_pos (Nat.le_of_dvd nonempty (Nat.dvd_of_mod_eq_zero rounded)) pos
  rw [← sizeEq] at pages ⊢
  exact map_outcome rfl rfl pages middle

theorem insertAt_ne {tree : RegionTree} {range : VirtualRange} :
    tree.insertAt region range ≠ tree := by
  intro same
  have lengths := congrArg (fun tree => tree.regions.length) same
  change (Intervals.insert _ _ _).length = _ at lengths
  rw [Intervals.length_insert] at lengths
  omega

/-- `allocate_region` has no guard, so a mapping that fails leaves the region
in the tree. -/
theorem allocateRegion_intact_iff (placed : space.regionTree.WellPlaced) :
    Intact (allocateRegionStatements boot request strategy answers) space ↔
      MappingGranted space request strategy answers := by
  constructor
  · intro intact size alignment range prepares allocated page inside
    by_contra refused
    have prepared := prepareRegion_ok.mpr ⟨prepares,
      (rfl : (Unplaced.mk (newRegion request answers) size alignment).region = _), rfl⟩
    let middle := space.after (nameRequests request.name + 1)
    let inserted : AddressSpace := { middle with
        regionTree := space.regionTree.insertAt (newRegion request answers) range }
    have positioned : outcome (placeRegion request size alignment
        (newRegion request answers)) middle = _ :=
      placeRegion_ok.mpr ⟨range, allocated, rfl, rfl⟩
    obtain ⟨later, failed⟩ := @map_newRegion _ boot _ _ _ inserted _ _ _ prepares allocated
    rw [if_neg fun all => refused (all page inside)] at failed
    have failure := placing_error.mpr (.finish prepared positioned failed)
    have unchanged := (intact _ _ failure).1
    have kept := map_leaves _ _ _ failed
    exact insertAt_ne (kept.symm.trans unchanged)
  · intro granted
    apply placing_intact placed prepareRegion_prepares
    intro unplaced middle range code last prepared allocated failed
    obtain ⟨prepares, regionEq, rfl⟩ := prepareRegion_ok.mp prepared
    rw [regionEq] at failed
    obtain ⟨later, success⟩ := map_newRegion _ prepares allocated
    rw [success] at failed
    rw [if_pos] at failed
    · cases failed
    · exact granted _ _ _ prepares allocated

/-- A failed call leaves the region tree as it was: always with a given
object, and in `allocate_region` if and only if the mapping gets its memory. -/
theorem failed_allocations_intact_iff (placed : space.regionTree.WellPlaced)
    (above : 0 < space.regionTree.totalRange.base) (word : request.requestedAddress < 2 ^ 64) :
    (Intact (allocateRegionStatements boot request strategy answers) space ↔
      MappingGranted space request strategy answers) ∧
      ∀ object, Intact (allocateRegionWithVMObjectStatements boot request object) space :=
  ⟨allocateRegion_intact_iff placed, fun _ => allocateRegionWithVMObject_intact placed above word⟩

/-- An empty address space of one mebibyte in which only the first request
for memory is granted. -/
def scarceSpace : AddressSpace where
  regionTree := ⟨⟨0x10000, 0x100000⟩, []⟩
  memory := fun index => index == 0

def onePageRequest : AllocationRequest := ⟨.no, fun _ => 0, 0, 0x1000, 0x1000, none, 3#32⟩

theorem failed_allocations_intact_iff_scarce : 0 < scarceSpace.regionTree.totalRange.base ∧
      (Intact (allocateRegionStatements ⟨0x2000000000⟩ onePageRequest .none
          ⟨true, true, id, 0⟩) scarceSpace ↔
        MappingGranted scarceSpace onePageRequest .none ⟨true, true, id, 0⟩) := by
  have placed : scarceSpace.regionTree.WellPlaced :=
    RegionTree.WellPlaced.initial (by unfold VirtualRange.Bounded; decide)
  have above : 0 < scarceSpace.regionTree.totalRange.base := by decide
  exact ⟨above, (failed_allocations_intact_iff placed above (by decide)).1⟩

/-- The page table cannot be allocated: the region is in the tree when the
call returns `ENOMEM`, and its destructor fails. -/
theorem allocateRegion_leaves_region :
    ∃ region later, outcome (allocateRegionStatements ⟨0x2000000000⟩ onePageRequest .none
          ⟨true, true, id, 0⟩) scarceSpace = some (.error (.ENOMEM, some region), later) ∧
      scarceSpace.regionTree.regions = [] ∧ later.regionTree.regions = [region] ∧
      outcome (allocateRegion ⟨0x2000000000⟩ onePageRequest .none
          ⟨true, true, id, 0⟩) scarceSpace = none :=
  ⟨_, _, rfl, rfl, rfl, rfl⟩

end

end AddressSpace

end MixUpOS.Kernel.Memory
