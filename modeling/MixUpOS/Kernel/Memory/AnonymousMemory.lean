import MixUpOS.Kernel.Memory.AnonymousVMObject

/-!
# All anonymous objects of a system

Objects refer to physical pages by number, and to the sets of committed pages
that a clone shares with its parent.  The contents of a page are of any type;
`zero` is the content of a page that was filled with zeroes.
-/

namespace MixUpOS.Kernel.Memory

open AK

structure AnonymousMemory (γ : Type) where
  objects : List AnonymousVMObject
  cowPools : List CommittedPhysicalPageSet
  contents : Nat → γ

/-- What the memory manager and the rest of the kernel answer during a fault:
the page handed out, whether an uncommitted page could be allocated, whether
the page table could be changed, and how many references to the page in the
slot are held besides those of the slots. -/
structure FaultAnswers where
  page : Nat
  granted : Bool
  mapped : Bool
  held : Nat
deriving DecidableEq, Repr

namespace AnonymousMemory

variable {γ : Type} (zero : γ) (memory : AnonymousMemory γ) (object index : Nat)

/-- The number of slots that hold the page. -/
def refCount (id : Nat) : Nat := (memory.objects.map fun object =>
    object.physicalPages.count (.page id)).sum

/-- `page_slot->ref_count()`.  The memory manager itself refers to the shared
zero page and to the lazy committed page. -/
def slotRefCount (slot : PageSlot) (held : Nat) : Nat :=
  match slot with
  | .page id => memory.refCount id + held
  | _ => 2 + held

/-- What is read through a slot. -/
def slotContent : PageSlot → γ
  | .page id => memory.contents id
  | _ => zero

def slotAt : Option PageSlot := do
  let current ← memory.objects[object]?
  current.physicalPages[index]?

/-- What is read at a page of an object. -/
def read : Option γ := (memory.slotAt object index).map (memory.slotContent zero)

def addObject (object : AnonymousVMObject) : AnonymousMemory γ :=
  { memory with objects := memory.objects ++ [object] }

def setObject (object : Nat) (current : AnonymousVMObject) : AnonymousMemory γ :=
  { memory with objects := memory.objects.set object current }

def setContent (page : Nat) (content : γ) : AnonymousMemory γ :=
  { memory with contents := Function.update memory.contents page content }

/-- The object that `try_create_with_shared_cow` constructs. -/
def withSharedCow (parent : AnonymousVMObject) (pool : Nat) : AnonymousVMObject where
  physicalPages := parent.physicalPages
  unusedCommittedPages := none
  cowMap := none
  sharedCommittedCowPages := some pool
  isPurgeable := parent.isPurgeable
  isVolatile := false
  wasPurged := false

/-- Whether the object still has committed pages that it did not use. -/
def hasUnusedCommittedPages (object : AnonymousVMObject) : Bool :=
  match object.unusedCommittedPages with
  | none => false
  | some set => !set.isEmpty

/-- Drop all lazy-commit references. -/
def dropLazyPages (object : AnonymousVMObject) : AnonymousVMObject := { object with
    physicalPages := object.physicalPages.map fun slot =>
      if slot = .lazyCommittedPage then .sharedZeroPage else slot }

/-- The part of `try_clone` behind the commitment of the pages. -/
def cloneSharedCow (object : Nat) (parent : AnonymousVMObject) (set : CommittedPhysicalPageSet)
    (granted : Bool) : ErrorOr (AnonymousMemory γ) :=
  if granted then do
    let pool := memory.cowPools.length
    let clone ← (withSharedCow parent pool).ensureCowMap granted
    let reset ← parent.ensureOrResetCowMap granted
    let shared := { reset with sharedCommittedCowPages := some pool }
    let final :=
      if hasUnusedCommittedPages parent then dropLazyPages clone else clone
    return {
      objects := memory.objects.set object shared ++ [final]
      cowPools := memory.cowPools ++ [set]
      contents := memory.contents }
  else .error .ENOMEM

/-- `AnonymousVMObject::try_clone`; the clone is the last object. -/
def tryClone (object : Nat) (committed granted : Bool) : Option (ErrorOr (AnonymousMemory γ)) := do
  let parent ← memory.objects[object]?
  let size := parent.physicalPages.length * pageSize
  let newCowPagesNeeded := parent.physicalPages.countP PageSlot.isOwnPage
  if parent.isPurgeable && parent.isVolatile then
    let result ← AnonymousVMObject.tryCreatePurgeableWithSize size .none
      committed granted fun _ => 0
    return result.map fun clone => memory.addObject
      { clone with isVolatile := true, wasPurged := true }
  else if newCowPagesNeeded = 0 then
    let result ← AnonymousVMObject.tryCreateWithSize size .none committed granted fun _ => 0
    return result.map memory.addObject
  else
    let commitment ← tryCommit newCowPagesNeeded committed
    match commitment with
    | .error code => return .error code
    | .ok set => return memory.cloneSharedCow object parent set granted

/-- A fault on a slot without a page.  A new page is filled with zeroes. -/
def zeroFault (atFault : PageSlot) (answers : FaultAnswers) :
    Option (PageFaultResponse × AnonymousMemory γ) := do
  let current ← memory.objects[object]?
  let (response, after) ← current.handleZeroFault index atFault answers.page
    answers.granted answers.mapped
  let later := memory.setObject object after
  if after = current then return (response, later)
  else return (response, later.setContent answers.page zero)

/-- Stop counting a shared set that is used up. -/
def dropEmptyPool (cowPools : List CommittedPhysicalPageSet)
    (object : AnonymousVMObject) : AnonymousVMObject :=
  match object.sharedCommittedCowPages with
  | none => object
  | some pool =>
    if (cowPools[pool]?).all CommittedPhysicalPageSet.isEmpty then
      { object with sharedCommittedCowPages := none }
    else object

/-- `take_one` or `uncommit_one` of a shared set. -/
def takeFromPool (cowPools : List CommittedPhysicalPageSet) (pool : Nat) :
    Option (List CommittedPhysicalPageSet) := do
  let set ← cowPools[pool]?
  let rest ← set.withoutOne
  return cowPools.set pool rest

/-- `MUST` of a result. -/
def must {α : Type} : ErrorOr α → Option α
  | .ok value => some value
  | .error _ => none

/-- The branch for a page that nobody shares anymore. -/
def adoptPage (current : AnonymousVMObject) (granted : Bool) :
    Option (PageFaultResponse × AnonymousMemory γ) := do
  let writable ← must (current.setShouldCow index false granted)
  match writable.sharedCommittedCowPages with
  | none => return (.«continue», memory.setObject object writable)
  | some pool =>
    let cowPools ← takeFromPool memory.cowPools pool
    let final := dropEmptyPool cowPools writable
    return (.«continue», { memory.setObject object final with cowPools := cowPools })

/-- Where the page for a copy comes from: the shared set if there is one, and
an uncommitted page otherwise. -/
def drawCowPage (cowPools : List CommittedPhysicalPageSet)
    (current : AnonymousVMObject) (granted : Bool) :
    Option (ErrorOr (List CommittedPhysicalPageSet)) :=
  match current.sharedCommittedCowPages with
  | some pool => (takeFromPool cowPools pool).map .ok
  | none => some (if granted then .ok cowPools else .error .ENOMEM)

/-- The branch that copies the page in the slot. -/
def copyPage (current : AnonymousVMObject) (slot : PageSlot) (answers : FaultAnswers) :
    Option (PageFaultResponse × AnonymousMemory γ) := do
  let drawn ← drawCowPage memory.cowPools current answers.granted
  match drawn with
  | .error _ => return (.outOfMemory, memory.setObject object current)
  | .ok cowPools =>
    let copied := current.setSlot index (.page answers.page)
    let writable ← must (copied.setShouldCow index false answers.granted)
    let later := (memory.setObject object writable).setContent answers.page
      (memory.slotContent zero slot)
    return (.«continue», { later with cowPools := cowPools })

def handleCowFault (answers : FaultAnswers) : Option (PageFaultResponse × AnonymousMemory γ) := do
  let original ← memory.objects[object]?
  let slot ← original.physicalPages[index]?
  let current := dropEmptyPool memory.cowPools original
  if original.isVolatile then return (.shouldCrash, memory)
  else if memory.slotRefCount slot answers.held = 1 then
    memory.adoptPage object index current answers.granted
  else memory.copyPage zero object index current slot answers

/-- `Region::handle_cow_fault` of a private region. -/
def cowFault (answers : FaultAnswers) : Option (PageFaultResponse × AnonymousMemory γ) := do
  let (response, later) ← memory.handleCowFault zero object index answers
  return (if answers.mapped then response else .outOfMemory, later)

/-- The write to a page that is mapped writable. -/
def store (change : γ → γ) : Option (AnonymousMemory γ) := do
  let current ← memory.objects[object]?
  let slot ← current.physicalPages[index]?
  match slot with
  | .page id => return memory.setContent id (change (memory.contents id))
  | _ => none

/-- The copy-on-write fault of a write, if there has to be one. -/
def writeOwnPage (change : γ → γ) (answers : FaultAnswers) :
    Option (PageFaultResponse × AnonymousMemory γ) := do
  let current ← memory.objects[object]?
  if current.shouldCow index false then
    let (response, later) ← memory.cowFault zero object index answers
    if response = .«continue» then
      return (response, ← later.store object index change)
    else return (response, later)
  else return (.«continue», ← memory.store object index change)

/-- A write to a page of a private region.  A slot without a page is filled
first. -/
def write (change : γ → γ) (fill copy : FaultAnswers) :
    Option (PageFaultResponse × AnonymousMemory γ) := do
  let current ← memory.objects[object]?
  let slot ← current.physicalPages[index]?
  if slot.isOwnPage then
    memory.writeOwnPage zero object index change copy
  else
    let (response, later) ← memory.zeroFault zero object index slot fill
    if response = .«continue» then
      later.writeOwnPage zero object index change copy
    else return (response, later)

end AnonymousMemory

end MixUpOS.Kernel.Memory
