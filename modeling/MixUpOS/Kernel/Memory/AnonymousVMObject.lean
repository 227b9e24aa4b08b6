import MixUpOS.AK.Error
import MixUpOS.Kernel.Memory.MemoryManager

/-!
# Anonymous memory objects

A slot of an anonymous object holds the shared zero page, the lazy committed
page or a page of its own.  The objects of a system share physical pages after
a clone, so cloning and copy-on-write faults work on all of them.

What the memory manager answers is given: whether pages can be committed,
whether other requests for memory are granted, and which page is handed out.
`none` is a failed `VERIFY`.
-/

namespace MixUpOS.Kernel.Memory

open AK

/-- What a slot of `m_physical_pages` refers to. -/
inductive PageSlot where
  | sharedZeroPage
  | lazyCommittedPage
  | page (id : Nat)
deriving DecidableEq, Repr

namespace PageSlot

/-- Neither the shared zero page nor the lazy committed page. -/
def isOwnPage : PageSlot → Bool
  | .page _ => true
  | _ => false

end PageSlot

inductive AllocationStrategy where
  | reserve
  | allocateNow
  | none
deriving DecidableEq, Repr

inductive PageFaultResponse where
  | shouldCrash
  | outOfMemory
  | «continue»
deriving DecidableEq, Repr

namespace CommittedPhysicalPageSet

/-- The count after `take_one` or `uncommit_one`. -/
def withoutOne (set : CommittedPhysicalPageSet) : Option CommittedPhysicalPageSet := do
  verify (0 < set.pageCount)
  return ⟨set.pageCount - 1⟩

/-- `take_one` as often as given. -/
def without (set : CommittedPhysicalPageSet) : Nat → Option CommittedPhysicalPageSet
  | 0 => some set
  | count + 1 => do
      let rest ← set.withoutOne
      rest.without count

def isEmpty (set : CommittedPhysicalPageSet) : Bool := set.pageCount == 0

end CommittedPhysicalPageSet

/-- `MM.commit_physical_pages`. -/
def tryCommit (pageCount : Nat) (committed : Bool) : Option (ErrorOr CommittedPhysicalPageSet) := do
  verify (0 < pageCount)
  if committed then return .ok ⟨pageCount⟩ else return .error .ENOMEM

structure AnonymousVMObject where
  physicalPages : List PageSlot
  unusedCommittedPages : Option CommittedPhysicalPageSet
  cowMap : Option (List Bool)
  sharedCommittedCowPages : Option Nat
  isPurgeable : Bool
  isVolatile : Bool
  wasPurged : Bool
deriving DecidableEq, Repr

namespace AnonymousVMObject

variable (object : AnonymousVMObject)

/-- An object with the given slots. -/
def ofSlots (slots : List PageSlot)
    (committed : Option CommittedPhysicalPageSet) : AnonymousVMObject where
  physicalPages := slots
  unusedCommittedPages := committed
  cowMap := none
  sharedCommittedCowPages := none
  isPurgeable := false
  isVolatile := false
  wasPurged := false

/-- The constructor for an allocation strategy; `pages` are the pages that
`take_one` returns. -/
def construct (pageCount : Nat) (strategy : AllocationStrategy)
    (committed : Option CommittedPhysicalPageSet) (pages : Nat → Nat) : Option AnonymousVMObject :=
  match strategy with
  | .allocateNow => do
      let set ← committed
      let rest ← set.without pageCount
      return ofSlots ((List.range pageCount).map fun index =>
        .page (pages index)) (some rest)
  | .reserve =>
    some (ofSlots (List.replicate pageCount .lazyCommittedPage) committed)
  | .none =>
    some (ofSlots (List.replicate pageCount .sharedZeroPage) committed)

/-- The pages that are committed before the object is constructed. -/
def commitForStrategy (pageCount : Nat) (strategy : AllocationStrategy) (committed : Bool) :
    Option (ErrorOr (Option CommittedPhysicalPageSet)) :=
  match strategy with
  | .none => some (.ok none)
  | _ => (tryCommit pageCount committed).map fun result => result.map some

def tryCreateWithSize (size : Nat) (strategy : AllocationStrategy)
    (committed granted : Bool) (pages : Nat → Nat) :
    Option (ErrorOr AnonymousVMObject) := do
  let pageCount := ceilDiv size pageSize
  let commitment ← commitForStrategy pageCount strategy committed
  match commitment with
  | .error code => return .error code
  | .ok set =>
    if granted then (construct pageCount strategy set pages).map .ok
    else return .error .ENOMEM

def tryCreatePurgeableWithSize (size : Nat) (strategy : AllocationStrategy)
    (committed granted : Bool) (pages : Nat → Nat) :
    Option (ErrorOr AnonymousVMObject) := do
  let result ← tryCreateWithSize size strategy committed granted pages
  return result.map fun object => { object with isPurgeable := true }

/-- `try_create_with_physical_pages`, and the other constructors that are
given their pages. -/
def tryCreateWithPhysicalPages (pages : List Nat) (granted : Bool) : ErrorOr AnonymousVMObject :=
  if granted then .ok (ofSlots (pages.map .page) none) else .error .ENOMEM

/-- The purged object and the number of pages purged. -/
def purge : AnonymousVMObject × Nat :=
  if !object.isPurgeable || !object.isVolatile then (object, 0)
  else
    ({ object with
        physicalPages := object.physicalPages.map fun _ => .sharedZeroPage
        wasPurged := true },
      object.physicalPages.countP fun slot => slot != .sharedZeroPage)

/-- Give up all committed memory. -/
def makeVolatile : AnonymousVMObject := { object with
    physicalPages := object.physicalPages.map fun slot =>
      if slot = .lazyCommittedPage then .sharedZeroPage else slot
    unusedCommittedPages := none
    sharedCommittedCowPages := none
    cowMap := none
    isVolatile := true
    wasPurged := false }

/-- Commit the pages that are not there. -/
def makeNonvolatile (committed : Bool) : Option (ErrorOr AnonymousVMObject) :=
  let committedPagesNeeded := object.physicalPages.count .sharedZeroPage
  if committedPagesNeeded = 0 then
    some (.ok { object with isVolatile := false })
  else do
    let result ← tryCommit committedPagesNeeded committed
    return result.map fun set =>
      { object with
        physicalPages := object.physicalPages.map fun slot =>
          if slot = .sharedZeroPage then .lazyCommittedPage else slot
        unusedCommittedPages := some set
        isVolatile := false
        wasPurged := false }

/-- `set_volatile`, with the value of `was_purged`. -/
def setVolatile (isVolatile committed : Bool) : Option (ErrorOr AnonymousVMObject × Bool) := do
  verify object.isPurgeable
  if object.isVolatile = isVolatile then
    return (.ok object, object.wasPurged)
  else if isVolatile then return (.ok object.makeVolatile, object.wasPurged)
  else
    let result ← object.makeNonvolatile committed
    return (result, object.wasPurged)

def allocateCommittedPage : Option AnonymousVMObject := do
  let set ← object.unusedCommittedPages
  let rest ← set.withoutOne
  return { object with unusedCommittedPages := some rest }

def setSlot (index : Nat) (slot : PageSlot) : AnonymousVMObject :=
  { object with physicalPages := object.physicalPages.set index slot }

/-- `Region::handle_zero_fault`.  `atFault` is the page that was in the slot
when the fault was looked at, `page` the new page, and `mapped` whether the
page table could be changed. -/
def handleZeroFault (index : Nat) (atFault : PageSlot) (page : Nat) (granted mapped : Bool) :
    Option (PageFaultResponse × AnonymousVMObject) := do
  let slot ← object.physicalPages[index]?
  let response : PageFaultResponse :=
    if mapped then .«continue» else .outOfMemory
  if slot.isOwnPage then return (response, object)
  else if atFault = .lazyCommittedPage then
    let object ← object.allocateCommittedPage
    return (response, object.setSlot index (.page page))
  else if granted then return (response, object.setSlot index (.page page))
  else return (.outOfMemory, object)

/-- The map after `reset_cow_map`. -/
def freshCowMap : List Bool := object.physicalPages.map PageSlot.isOwnPage

def ensureCowMap (granted : Bool) : ErrorOr AnonymousVMObject :=
  match object.cowMap with
  | some _ => .ok object
  | none =>
    if granted then .ok { object with cowMap := some object.freshCowMap }
    else .error .ENOMEM

def ensureOrResetCowMap (granted : Bool) : ErrorOr AnonymousVMObject :=
  match object.cowMap with
  | none => object.ensureCowMap granted
  | some _ => .ok { object with cowMap := some object.freshCowMap }

/-- The bit of the map, if there is a map. -/
def cowBit (index : Nat) : Bool :=
  match object.cowMap with
  | none => false
  | some map => map.getD index false

def shouldCow (index : Nat) (isShared : Bool) : Bool :=
  match object.physicalPages[index]? with
  | some .sharedZeroPage => true
  | some .lazyCommittedPage => true
  | _ => if isShared then false else object.cowBit index

def setShouldCow (index : Nat) (cow granted : Bool) : ErrorOr AnonymousVMObject := do
  let object ← object.ensureCowMap granted
  return { object with
    cowMap := object.cowMap.map fun map => map.set index cow }

end AnonymousVMObject

end MixUpOS.Kernel.Memory
