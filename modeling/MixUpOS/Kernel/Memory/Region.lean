import MixUpOS.Kernel.Memory.VirtualRange

/-!
# Regions

A region maps a virtual range to a part of a `VMObject`.  The page directory
a region is attached to, its lock and its list nodes are not modelled.
-/

namespace MixUpOS.Kernel.Memory

/-- The subclasses of `VMObject`. -/
inductive VMObjectKind where
  | anonymous
  | privateInode
  | sharedInode
  | mmio
deriving DecidableEq, Repr

/-- A `VMObject` by identity. -/
structure VMObject where
  id : Nat
  kind : VMObjectKind
deriving DecidableEq, Repr

namespace VMObject

def isAnonymous (vmobject : VMObject) : Bool := vmobject.kind == .anonymous

def isSharedInode (vmobject : VMObject) : Bool := vmobject.kind == .sharedInode

def isInode (vmobject : VMObject) : Bool := vmobject.kind == .privateInode || vmobject.isSharedInode

end VMObject

inductive MemoryType where
  | normal
  | nonCacheable
  | io
deriving DecidableEq, Repr

/-- The bits of `Region::Access`. -/
structure Access where
  read : Bool
  write : Bool
  execute : Bool
deriving DecidableEq, Repr

structure Region where
  range : VirtualRange
  vmobject : VMObject
  offsetInVMObject : Nat
  name : Option String
  access : Access
  memoryType : MemoryType
  shared : Bool
  stack : Bool
  mmap : Bool
  syscallRegion : Bool
  mmappedFromReadable : Bool
  mmappedFromWritable : Bool
  immutable : Bool
  hasBeenReadable : Bool
  hasBeenWritable : Bool
  hasBeenExecutable : Bool
deriving DecidableEq, Repr

namespace Region

/-- `Region::create_unplaced`; the shadow permission bits follow the
access. -/
def createUnplaced (vmobject : VMObject) (offsetInVMObject : Nat)
    (name : Option String) (access : Access) (memoryType : MemoryType)
    (shared : Bool) : Region where
  range := ⟨0, 0⟩
  vmobject := vmobject
  offsetInVMObject := offsetInVMObject
  name := name
  access := access
  memoryType := memoryType
  shared := shared
  stack := false
  mmap := false
  syscallRegion := false
  mmappedFromReadable := false
  mmappedFromWritable := false
  immutable := false
  hasBeenReadable := access.read
  hasBeenWritable := access.write
  hasBeenExecutable := access.execute

/-- `set_readable`, `set_writable` and `set_executable` in turn. -/
def setAccess (region : Region) (access : Access) : Region := { region with
    access := access
    hasBeenReadable := region.hasBeenReadable || access.read
    hasBeenWritable := region.hasBeenWritable || access.write
    hasBeenExecutable := region.hasBeenExecutable || access.execute }

def base (region : Region) : Nat := region.range.base

/-- The exclusive end of the region as a number. -/
def stop (region : Region) : Nat := region.range.stop

end Region

end MixUpOS.Kernel.Memory
