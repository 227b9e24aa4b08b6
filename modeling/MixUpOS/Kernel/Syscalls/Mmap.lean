import MixUpOS.Kernel.Memory.AddressSpace

/-!
# Changing the protection of mappings

`sys$mprotect` and the checks that it shares with `sys$mmap`.  Of the process
only what these functions read is modelled.
-/

namespace MixUpOS.Kernel.Syscalls

open AK Library.Programs
open Kernel.Memory
open Kernel.Memory.AddressSpace

/-- The promises that the modelled system calls ask for. -/
inductive Pledge where
  | stdio
  | protExec
deriving DecidableEq, Repr

/-- The state of a process that the checks read; the two flags are those of
the mount of its executable. -/
structure Process where
  hasPromises : Bool
  hasPromised : Pledge → Bool
  axAllowed : Bool
  wxAllowed : Bool
  rejectTransitionToExecutableFromWritableProt : Bool

namespace Prot

/-- `prot & PROT_READ`. -/
def read (prot : BitVec 32) : Bool := prot.getLsbD 0

/-- `prot & PROT_WRITE`. -/
def write (prot : BitVec 32) : Bool := prot.getLsbD 1

/-- `prot & PROT_EXEC`. -/
def exec (prot : BitVec 32) : Bool := prot.getLsbD 2

end Prot

def protToRegionAccessFlags (prot : BitVec 32) : Access :=
  ⟨Prot.read prot, Prot.write prot, Prot.exec prot⟩

namespace Process

variable (boot : BootInfo) (process : Process) (prot : BitVec 32)

def requirePromise (promise : Pledge) : Command Unit :=
  refuseIf (process.hasPromises && !process.hasPromised promise) .EPROMISEVIOLATION

def validateMmapProt (mapStack mapAnonymous : Bool) (region : Option Region) : ErrorOr Unit :=
  let makeWritable := Prot.write prot
  let makeExecutable := Prot.exec prot
  if mapAnonymous && makeExecutable && !process.axAllowed then
    .error .EINVAL
  else if mapStack && makeExecutable then .error .EINVAL
  else if process.wxAllowed then .ok ()
  else if makeWritable && makeExecutable then .error .EINVAL
  else
    match region with
    | none => .ok ()
    | some region =>
      if makeWritable && region.hasBeenExecutable then .error .EINVAL
      else if makeExecutable && region.hasBeenWritable &&
          process.rejectTransitionToExecutableFromWritableProt then
        .error .EINVAL
      else .ok ()

def validateInodeMmapProt (readableDescription descriptionWritable mapShared : Bool) :
    ErrorOr Unit :=
  if Prot.read prot && !readableDescription then .error .EACCES
  else if mapShared && Prot.write prot && !descriptionWritable then
    .error .EACCES
  else .ok ()

/-- The checks on a region before its access is looked at. -/
def checkMmapProt (region : Region) : Command Unit := do
  refuseIf (!region.mmap) .EPERM
  refuseIf region.immutable .EPERM
  fallible (process.validateMmapProt prot region.stack region.vmobject.isAnonymous (some region))

/-- The check on a region that is backed by an inode. -/
def checkInodeProt (region : Region) : Command Unit := fallible (if region.vmobject.isInode then
    validateInodeMmapProt prot region.mmappedFromReadable region.mmappedFromWritable region.shared
  else .ok ())

/-- `set_readable`, `set_writable` and `set_executable` on a region of the
tree. -/
def setAccess (region : Region) (access : Access) : Command Region := do
  let tree ← readTree
  writeTree (tree.setAccess region access)
  return region.setAccess access

def setAccessAndRemap (region : Region) (access : Access) : Command Unit := do
  let changed ← setAccess region access
  remap boot changed

/-- Place a part of a region that was taken out, with another access. -/
def replacePart (region : Region) (part : VirtualRange) (access : Access) : Command Region := do
  let new ← tryAllocateSplitRegion region part (splitOffset region part.base)
  setAccess new access

def mprotectWholeRegion (region : Region) : Command Unit := do
  process.checkMmapProt prot region
  if region.access = protToRegionAccessFlags prot then return ()
  else
    checkInodeProt prot region
    setAccessAndRemap boot region (protToRegionAccessFlags prot)

def mprotectInContainingRegion (region : Region) (range : VirtualRange) : Command Unit := do
  process.checkMmapProt prot region
  if region.access = protToRegionAccessFlags prot then return ()
  else
    checkInodeProt prot region
    let adjacentRegions ← takeAndSplit region range
    let newRegion ← replacePart region range (protToRegionAccessFlags prot)
    mapAll boot adjacentRegions
    map boot newRegion

/-- The loop that checks all regions and adds up how much of the range they
cover. -/
def checkRegions (process : Process) (prot : BitVec 32)
    (range : VirtualRange) : List Region → Nat → Command Nat
  | [], fullSizeFound => pure fullSizeFound
  | region :: rest, fullSizeFound => do
      process.checkMmapProt prot region
      checkInodeProt prot region
      let overlap ← asserted (region.range.intersect range)
      checkRegions process prot range rest ((fullSizeFound + overlap.size) % 2 ^ 64)

/-- Change the part of a region that lies in the range. -/
def mprotectRegion (access : Access) (range : VirtualRange) (region : Region) : Command Unit := do
  let intersectionToMprotect ← asserted (range.intersect region.range)
  if intersectionToMprotect = region.range then
    setAccessAndRemap boot region access
  else
    let adjacentRegions ← takeAndSplit region intersectionToMprotect
    assert (adjacentRegions.length == 1)
    let newRegion ← replacePart region intersectionToMprotect access
    mapAll boot (adjacentRegions.take 1)
    map boot newRegion

def mprotectRegions (boot : BootInfo) (access : Access)
    (range : VirtualRange) : List Region → Command Unit
  | [] => pure ()
  | region :: rest =>
    if region.access = access then mprotectRegions boot access range rest
    else do
      mprotectRegion boot access range region
      mprotectRegions boot access range rest

def mprotectSeveralRegions (range : VirtualRange) : Command Unit := do
  let regions ← findRegionsIntersecting range
  refuseIf regions.isEmpty .EINVAL
  let fullSizeFound ← process.checkRegions prot range regions 0
  refuseIf (fullSizeFound != range.size) .ENOMEM
  mprotectRegions boot (protToRegionAccessFlags prot) range regions

/-- Execution has to be promised if it is asked for. -/
def requireExecPromise : Command Unit :=
  if Prot.exec prot then process.requirePromise .protExec else pure ()

def sysMprotect (addr size : Nat) (prot : BitVec 32) : Command Unit := do
  process.requirePromise .stdio
  process.requireExecPromise prot
  let range ← fallible (VirtualRange.expandToPageBoundaries addr size)
  refuseIf (range.size == 0) .EINVAL
  refuseIf (!boot.isUserRange range) .EFAULT
  let tree ← readTree
  match findRegionFromRange tree range with
  | some wholeRegion => process.mprotectWholeRegion boot prot wholeRegion
  | none =>
    match tree.findRegionContaining range with
    | some oldRegion =>
      process.mprotectInContainingRegion boot prot oldRegion range
    | none => process.mprotectSeveralRegions boot prot range

end Process

end MixUpOS.Kernel.Syscalls
