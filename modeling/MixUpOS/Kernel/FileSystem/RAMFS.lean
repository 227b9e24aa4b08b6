import MixUpOS.AK.Error
import MixUpOS.Kernel.FileSystem.Custody

/-!
# Changes of directories

What `RAMFS` does to the children of a directory.  Whether there is memory, and
the index of a new inode, are told by an answer.
-/

namespace MixUpOS.Kernel

open AK

def nameMax : Nat := 255

namespace Files

variable (files : Files) (directory : InodeIdentifier)

def setInode (inode : InodeIdentifier) (content : Inode) : Files := { files with
    inodes := fun other => if other = inode then content
      else files.inodes other }

def setEntries (entries : List (StringView × InodeIdentifier)) : Files :=
  files.setInode directory { files.inodes directory with entries := entries }

def addChild (directory child : InodeIdentifier)
    (name : StringView) (answer : ErrorOr Unit) : ErrorOr Unit × Files :=
  if nameMax < name.length then (.error .ENAMETOOLONG, files)
  else if (files.lookup directory name).isSome then (.error .EEXIST, files)
  else
    match answer with
    | .error error => (.error error, files)
    | .ok _ =>
      (.ok (), files.setEntries directory ((files.inodes directory).entries ++ [(name, child)]))

def createChild (name : StringView) (metadata : InodeMetadata) (answer : ErrorOr Nat) :
    ErrorOr InodeIdentifier × Files :=
  match answer with
  | .error error => (.error error, files)
  | .ok index =>
    let child : InodeIdentifier := ⟨directory.fsid, index⟩
    let (result, later) := (files.setInode child ⟨metadata, [], []⟩).addChild
      directory child name (.ok ())
    match result with
    | .error error => (.error error, files)
    | .ok _ => (.ok child, later)

/-- The entries without the first one that has the name. -/
def eraseEntry (name : StringView) :
    List (StringView × InodeIdentifier) → List (StringView × InodeIdentifier)
  | [] => []
  | entry :: rest =>
    if entry.1 = name then rest else entry :: eraseEntry name rest

def removeChild (name : StringView) : ErrorOr Unit × Files :=
  if name = [dot] ∨ name = [dot, dot] then (.ok (), files)
  else
    match files.lookup directory name with
    | none => (.error .ENOENT, files)
    | some _ =>
      (.ok (), files.setEntries directory (eraseEntry name (files.inodes directory).entries))

/-- `rename` of the file system. -/
def rename (oldDirectory : InodeIdentifier) (oldName : StringView)
    (newDirectory : InodeIdentifier) (newName : StringView) (answer : ErrorOr Unit) :
    Option (ErrorOr Unit × Files) := do
  verify (match files.lookup newDirectory newName with
    | none => true
    | some replaced => !files.isDirectory replaced)
  let cleared := match files.lookup newDirectory newName with
    | none => files
    | some _ => (files.removeChild newDirectory newName).2
  match cleared.lookup oldDirectory oldName with
  | none => return (.error .ENOENT, cleared)
  | some moved =>
    let (added, later) := cleared.addChild newDirectory moved newName answer
    match added with
    | .error error => return (.error error, later)
    | .ok _ => return later.removeChild oldDirectory oldName

/-- How many entries `traverse_as_directory` shows: those of the directory
itself and of its parent as well. -/
def childCount : Nat := 2 + (files.inodes directory).entries.length

end Files

end MixUpOS.Kernel
