import MixUpOS.Kernel.Library.KLexicalPath
import MixUpOS.Kernel.FileSystem.InodeMetadata

/-!
# Inodes and custodies

The inodes of all file systems, the custodies that lead to them, and the mounts
of a root context.
-/

namespace MixUpOS.Kernel

open AK

structure InodeIdentifier where
  fsid : Nat
  index : Nat
deriving DecidableEq, Repr

/-- An inode: a directory has entries, a link has contents. -/
structure Inode where
  metadata : InodeMetadata
  entries : List (StringView × InodeIdentifier)
  contents : StringView
deriving DecidableEq, Repr

/-- The flags of a mount that the virtual file system looks at. -/
structure MountFlags where
  rdonly : Bool
  noregular : Bool
  noexec : Bool
  nodev : Bool
deriving DecidableEq, Repr

inductive Custody where
  | root (inode : InodeIdentifier) (mountFlags : MountFlags)
  | child (parent : Custody) (name : StringView) (inode : InodeIdentifier) (mountFlags : MountFlags)
deriving DecidableEq, Repr

namespace Custody

def parent : Custody → Option Custody
  | root _ _ => none
  | child parent _ _ _ => some parent

def name : Custody → StringView
  | root _ _ => []
  | child _ name _ _ => name

def inode : Custody → InodeIdentifier
  | root inode _ => inode
  | child _ _ inode _ => inode

def mountFlags : Custody → MountFlags
  | root _ flags => flags
  | child _ _ _ flags => flags

/-- The names on the way from the root, each behind a slash. -/
def serializeNames : Custody → StringView
  | root _ _ => []
  | child parent name _ _ => parent.serializeNames ++ slash :: name

/-- `try_serialize_absolute_path`, when it gets its memory. -/
def trySerializeAbsolutePath (custody : Custody) : StringView :=
  match custody.parent with
  | none => [slash]
  | some _ => custody.serializeNames

end Custody

structure Mount where
  guest : InodeIdentifier
  hostCustody : Option Custody
  flags : MountFlags
deriving DecidableEq, Repr

/-- All inodes, and the file systems that are read-only. -/
structure Files where
  inodes : InodeIdentifier → Inode
  isReadonly : Nat → Bool

namespace Files

def metadata (files : Files) (inode : InodeIdentifier) : InodeMetadata :=
  (files.inodes inode).metadata

def isDirectory (files : Files) (inode : InodeIdentifier) : Bool :=
  Kernel.isDirectory (files.metadata inode).mode

def isSymlink (files : Files) (inode : InodeIdentifier) : Bool :=
  Kernel.isSymlink (files.metadata inode).mode

/-- `lookup`; what it does not find is `ENOENT`. -/
def lookup (files : Files) (directory : InodeIdentifier)
    (name : StringView) : Option InodeIdentifier :=
  (files.inodes directory).entries.lookup name

end Files

def Custody.isReadonly (files : Files) (custody : Custody) : Bool :=
  custody.mountFlags.rdonly || files.isReadonly custody.inode.fsid

structure VFSRootContext where
  rootInode : InodeIdentifier
  rootFlags : MountFlags
  mounts : List Mount

def VFSRootContext.rootCustody (context : VFSRootContext) : Custody :=
  .root context.rootInode context.rootFlags

/-- The loop of `check_matching_absolute_path_hierarchy`. -/
def sameParents : Custody → Custody → Bool
  | .root _ _, _ => true
  | .child _ _ _ _, .root _ _ => false
  | .child first _ _ _, .child second _ _ _ =>
    first.inode == second.inode && sameParents first second

def checkMatchingAbsolutePathHierarchy (first second : Custody) : Bool :=
  if first.parent.isNone && second.parent.isNone then true
  else if first.name != second.name then false
  else sameParents first second

/-- `current_mount_state_for_host_custody`: what is mounted on a custody that
has a parent, with the flags of the mount. -/
def VFSRootContext.currentMountState (context : VFSRootContext)
    (custody : Custody) : Option (InodeIdentifier × MountFlags) :=
  (context.mounts.find? fun mount => mount.hostCustody.elim false
    fun host => checkMatchingAbsolutePathHierarchy host custody).map
      fun mount => (mount.guest, mount.flags)

end MixUpOS.Kernel
