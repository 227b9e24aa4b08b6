import MixUpOS.Kernel.FileSystem.VirtualFileSystem
import MixUpOS.Kernel.FileSystem.RAMFS

/-!
# Operations of the virtual file system

The operations that create, remove or rename entries of directories.  What the
file system or a driver answers is passed to them.
-/

namespace MixUpOS.Kernel

open AK KLexicalPath

namespace World

variable (world : World)

/-- The owner of what a process creates. -/
def ownMetadata (mode : Nat) : InodeMetadata :=
  ⟨mode, world.credentials.euid, world.credentials.egid⟩

/-- The last steps of `mknod`, `mkdir` and `symlink`. -/
def createIn (parent : Custody) (name : StringView)
    (metadata : InodeMetadata) (answer : ErrorOr Nat) : ErrorOr InodeIdentifier × Files :=
  if !(world.files.metadata parent.inode).mayWrite world.credentials then
    (.error .EACCES, world.files)
  else if parent.isReadonly world.files then (.error .EROFS, world.files)
  else world.files.createChild parent.inode name metadata answer

def mknod (path : StringView) (mode : Nat) (base : Custody)
    (answer : ErrorOr Nat) : Option (ErrorOr InodeIdentifier × Files) :=
  if !isRegularFile mode && !isBlockDevice mode && !isCharacterDevice mode &&
      !isFifo mode && !isSocket mode then
    some (.error .EINVAL, world.files)
  else do
    let (existing, parentCustody) ← world.resolvePath path base none {} 0
    match existing, parentCustody with
    | .ok _, _ => return (.error .EEXIST, world.files)
    | .error _, none => return (.error .ENOENT, world.files)
    | .error error, some parent =>
      if error ≠ .ENOENT then return (.error error, world.files)
      else
        return world.createIn parent (basename path) (world.ownMetadata mode) answer

/-- The path that `mkdir` resolves: without trailing slashes. -/
def mkdirPath (path : StringView) : StringView :=
  let trimmed := StringView.trimRight path slash
  if trimmed.isEmpty then [slash] else trimmed

def mkdir (path : StringView) (mode : Nat) (base : Custody)
    (answer : ErrorOr Nat) : Option (ErrorOr InodeIdentifier × Files) := do
  let path := mkdirPath path
  let (result, parentCustody) ← world.resolvePathWithoutVeil path base none {} 0
  match result, parentCustody with
  | .ok _, _ => return (.error .EEXIST, world.files)
  | .error error, none => return (.error error, world.files)
  | .error error, some parent =>
    verify (decide (error = .ENOENT))
    match ← validateCustody world.veil parent { creat := true } with
    | .error error => return (.error error, world.files)
    | .ok _ =>
      return world.createIn parent (basename path) (world.ownMetadata (0o040000 ||| mode)) answer

def hardLinkAllowed (inode : InodeIdentifier) : Bool :=
  let metadata := world.files.metadata inode
  if world.credentials.euid == metadata.uid then true
  else isRegularFile metadata.mode && !isSetuid metadata.mode &&
    !(isSetgid metadata.mode && metadata.mode &&& 0o10 != 0) &&
    metadata.mayWrite world.credentials

/-- `link`; it returns the inode that was linked. -/
def link (oldPath newPath : StringView) (base : Custody)
    (answer : ErrorOr Unit) : Option (ErrorOr InodeIdentifier × Files) := do
  let (old, _) ← world.resolvePath oldPath base none { rdonly := true, wronly := true } 0
  match old with
  | .error error => return (.error error, world.files)
  | .ok oldCustody =>
    let oldInode := oldCustody.inode
    let (new, parentCustody) ← world.resolvePath newPath base none {} 0
    match new, parentCustody with
    | .ok _, _ => return (.error .EEXIST, world.files)
    | .error _, none => return (.error .ENOENT, world.files)
    | .error _, some parent =>
      if parent.inode.fsid ≠ oldInode.fsid then
        return (.error .EXDEV, world.files)
      else if !(world.files.metadata parent.inode).mayWrite world.credentials then
        return (.error .EACCES, world.files)
      else if world.files.isDirectory oldInode then
        return (.error .EPERM, world.files)
      else if parent.isReadonly world.files then
        return (.error .EROFS, world.files)
      else if !world.hardLinkAllowed oldInode then
        return (.error .EPERM, world.files)
      else
        let (result, files) := world.files.addChild parent.inode oldInode (basename newPath) answer
        return (result.map fun _ => oldInode, files)

/-- The veil is asked about the target of a new link if there is one. -/
def validateTarget : ErrorOr Custody → Option (ErrorOr Unit)
  | .error _ => some (.ok ())
  | .ok custody =>
    validateCustody world.veil custody { rdonly := true, wronly := true }

def symlink (target linkpath : StringView) (base : Custody)
    (answer : ErrorOr Nat) : Option (ErrorOr InodeIdentifier × Files) := do
  let (targetResult, _) ← world.resolvePathWithoutVeil target base none
    { rdonly := true, wronly := true } 0
  match ← world.validateTarget targetResult with
  | .error error => return (.error error, world.files)
  | .ok _ =>
    let (existing, parentCustody) ← world.resolvePath linkpath base none
      { rdonly := true, wronly := true } 0
    match existing, parentCustody with
    | .ok _, _ => return (.error .EEXIST, world.files)
    | .error _, none => return (.error .ENOENT, world.files)
    | .error error, some parent =>
      match ← validateCustody world.veil parent { rdonly := true, wronly := true } with
      | .error error => return (.error error, world.files)
      | .ok _ =>
        if error ≠ .ENOENT then return (.error error, world.files)
        else
          let (result, files) := world.createIn parent (basename linkpath)
            (world.ownMetadata 0o120644) answer
          match result with
          | .error error => return (.error error, files)
          | .ok inode =>
            return (.ok inode, files.setInode inode { files.inodes inode with contents := target })

def create (path : StringView) (options : OpenOptions) (mode : Nat)
    (parent : Custody) (owner : Option (Nat × Nat)) (answer : ErrorOr Nat) :
    Option (ErrorOr Custody × Files) := do
  let basename := basename path
  let fullPath ← tryJoin parent.trySerializeAbsolutePath basename
  match ← validatePath world.veil fullPath options with
  | .error error => return (.error error, world.files)
  | .ok _ =>
    let mode := if !isSocket mode && !isFifo mode && !isBlockDevice mode &&
      !isCharacterDevice mode then mode ||| 0o100000 else mode
    let (uid, gid) := owner.getD (world.credentials.euid, world.credentials.egid)
    if !(world.files.metadata parent.inode).mayWrite world.credentials then
      return (.error .EACCES, world.files)
    else if parent.isReadonly world.files then
      return (.error .EROFS, world.files)
    else if isRegularFile mode && parent.mountFlags.noregular then
      return (.error .EACCES, world.files)
    else
      let (result, files) := world.files.createChild parent.inode basename ⟨mode, uid, gid⟩ answer
      return (result.map fun inode =>
        .child parent basename inode parent.mountFlags, files)

/-- The part of `open` that opens what exists. `driver` is what opening a FIFO
or a device answers. -/
def openExisting (custody : Custody) (options : OpenOptions)
    (driver : ErrorOr Unit) : ErrorOr Custody × Files :=
  let metadata := world.files.metadata custody.inode
  if isRegularFile metadata.mode && custody.mountFlags.noregular then
    (.error .EACCES, world.files)
  else if options.directory && !isDirectory metadata.mode then
    (.error .ENOTDIR, world.files)
  else if options.rdonly && !metadata.mayRead world.credentials then
    (.error .EACCES, world.files)
  else if options.wronly && !metadata.mayWrite world.credentials then
    (.error .EACCES, world.files)
  else if options.wronly && isDirectory metadata.mode then
    (.error .EISDIR, world.files)
  else if options.exec && (!metadata.mayExecute world.credentials || custody.mountFlags.noexec) then
    (.error .EACCES, world.files)
  else if isFifo metadata.mode then
    if options.wronly || options.rdonly then
      (driver.map fun _ => custody, world.files)
    else (.error .EINVAL, world.files)
  else if isCharacterDevice metadata.mode || isBlockDevice metadata.mode then
    if custody.mountFlags.nodev then (.error .EACCES, world.files)
    else (driver.map fun _ => custody, world.files)
  else if options.wronly && custody.isReadonly world.files then
    (.error .EROFS, world.files)
  else
    (.ok custody, if options.wronly && options.trunc then
      world.files.setInode custody.inode { world.files.inodes custody.inode with contents := [] }
      else world.files)

/-- `open`; the answers are those of the file system and of a driver. -/
def openPath (path : StringView) (options : OpenOptions) (mode : Nat)
    (base : Custody) (owner : Option (Nat × Nat)) (answer : ErrorOr Nat)
    (driver : ErrorOr Unit) : Option (ErrorOr Custody × Files) :=
  if options.creat && options.directory then
    some (.error .EINVAL, world.files)
  else do
    let (result, parentCustody) ← world.resolvePath path base none options 0
    match result, parentCustody with
    | .error error, some parent =>
      if options.creat && error == .ENOENT then
        world.create path options mode parent owner answer
      else return (.error error, world.files)
    | .error error, none => return (.error error, world.files)
    | .ok custody, _ =>
      if options.creat && options.excl then
        return (.error .EEXIST, world.files)
      else return world.openExisting custody options driver

/-- A directory where only owners may remove entries. -/
def stickyForbids (directory inode : InodeIdentifier) : Bool :=
  isSticky (world.files.metadata directory).mode && !world.credentials.isSuperuser &&
    (world.files.metadata directory).uid != world.credentials.euid &&
    (world.files.metadata inode).uid != world.credentials.euid

def unlink (path : StringView) (base : Custody) : Option (ErrorOr Unit × Files) := do
  let (result, parentCustody) ← world.resolvePath path base none
    { wronly := true, nofollowNoerror := true, unlinkInternal := true } 0
  match result with
  | .error error => return (.error error, world.files)
  | .ok custody =>
    if world.files.isDirectory custody.inode then
      return (.error .EISDIR, world.files)
    else
      match parentCustody with
      | none => none
      | some parent =>
        if !(world.files.metadata parent.inode).mayWrite world.credentials then
          return (.error .EACCES, world.files)
        else if world.stickyForbids parent.inode custody.inode then
          return (.error .EACCES, world.files)
        else if parent.isReadonly world.files then
          return (.error .EROFS, world.files)
        else
          return world.files.removeChild parent.inode (basename path)

def rmdir (path : StringView) (base : Custody) : Option (ErrorOr Unit × Files) := do
  let (result, parentCustody) ← world.resolvePath path base none { creat := true } 0
  match result with
  | .error error => return (.error error, world.files)
  | .ok custody =>
    if basename path = [dot] then
      return (.error .EINVAL, world.files)
    else if !world.files.isDirectory custody.inode then
      return (.error .ENOTDIR, world.files)
    else
      match parentCustody with
      | none => return (.error .EBUSY, world.files)
      | some parent =>
        if !(world.files.metadata parent.inode).mayWrite world.credentials then
          return (.error .EACCES, world.files)
        else if world.stickyForbids parent.inode custody.inode then
          return (.error .EACCES, world.files)
        else if world.files.childCount custody.inode ≠ 2 then
          return (.error .ENOTEMPTY, world.files)
        else if custody.isReadonly world.files then
          return (.error .EROFS, world.files)
        else
          return world.files.removeChild parent.inode (basename path)

/-- A custody or one of its ancestors has the inode. -/
def isInside (inode : InodeIdentifier) : Custody → Bool
  | .root own _ => own == inode
  | .child parent _ own _ => own == inode || isInside inode parent

/-- A name that cannot be renamed. -/
def isSpecialName (name : StringView) : Bool := name.isEmpty || name == [dot] || name == [dot, dot]

/-- The checks of `rename` on what the new path leads to, before the parents
are looked at. -/
def newIsFull (oldInode : InodeIdentifier) : Option Custody → Bool
  | none => false
  | some new => oldInode.index != new.inode.index &&
      world.files.isDirectory oldInode && world.files.isDirectory new.inode &&
      decide (2 < world.files.childCount new.inode)

/-- The last steps of `rename`. -/
def renameIn (oldInode : InodeIdentifier) (oldParent : Custody) (oldName : StringView)
    (new : Option Custody) (newParent : Custody) (newName : StringView) (answer : ErrorOr Unit) :
    Option (ErrorOr Unit × Files) :=
  if isSpecialName oldName || isSpecialName newName then
    some (.error .EINVAL, world.files)
  else if oldName = newName ∧ oldParent.inode.index = newParent.inode.index then
    some (.ok (), world.files)
  else
    match new with
    | none => world.files.rename oldParent.inode oldName newParent.inode newName answer
    | some new =>
      if new.inode = oldInode then some (.ok (), world.files)
      else if isSticky (world.files.metadata newParent.inode).mode &&
          !world.credentials.isSuperuser &&
          (world.files.metadata new.inode).uid != world.credentials.euid then
        some (.error .EACCES, world.files)
      else if world.files.isDirectory new.inode && !world.files.isDirectory oldInode then
        some (.error .EISDIR, world.files)
      else world.files.rename oldParent.inode oldName newParent.inode newName answer

def rename (oldBase : Custody) (oldPath : StringView) (newBase : Custody)
    (newPath : StringView) (answer : ErrorOr Unit) :
    Option (ErrorOr Unit × Files) := do
  let (old, oldParentCustody) ← world.resolvePath oldPath oldBase none { nofollowNoerror := true } 0
  match old with
  | .error error => return (.error error, world.files)
  | .ok oldCustody =>
    let oldInode := oldCustody.inode
    let (new, newParentCustody) ← world.resolvePath newPath newBase none {} 0
    let failed : Option ErrNo := match new with
      | .ok _ => none
      | .error error =>
        if error ≠ .ENOENT ∨ newParentCustody = none then some error
        else none
    match failed, oldParentCustody, newParentCustody with
    | some error, _, _ => return (.error error, world.files)
    | none, some oldParent, some newParent =>
      if world.newIsFull oldInode new.toOption then
        return (.error .ENOTEMPTY, world.files)
      else if oldParent.inode.fsid ≠ newParent.inode.fsid then
        return (.error .EXDEV, world.files)
      else if isInside oldInode newParent then
        return (.error .EDIRINTOSELF, world.files)
      else if !(world.files.metadata newParent.inode).mayWrite world.credentials then
        return (.error .EACCES, world.files)
      else if !(world.files.metadata oldParent.inode).mayWrite world.credentials then
        return (.error .EACCES, world.files)
      else if world.stickyForbids oldParent.inode oldInode then
        return (.error .EACCES, world.files)
      else if oldParent.isReadonly world.files || newParent.isReadonly world.files then
        return (.error .EROFS, world.files)
      else
        world.renameIn oldInode oldParent (basename oldPath) new.toOption newParent
          (basename newPath) answer
    | none, _, _ => return (.error .EPERM, world.files)

end World

end MixUpOS.Kernel
