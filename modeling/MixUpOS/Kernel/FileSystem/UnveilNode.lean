import MixUpOS.AK.Trie
import MixUpOS.Kernel.FileSystem.Custody

/-!
# The veil of a process

The unveiled paths of a process are a trie.  A node that only leads to an
unveiled path has the permissions of its parent.
-/

namespace MixUpOS.Kernel

open AK

/-- A set of unveil permissions. -/
structure UnveilAccess where
  read : Bool := false
  write : Bool := false
  execute : Bool := false
  createOrRemove : Bool := false
  browse : Bool := false
deriving DecidableEq, Repr

namespace UnveilAccess

/-- `UnveilAccess::None`. -/
def nothing : UnveilAccess := {}

/-- A permission is in the first set and not in the second. -/
def exceeds (first second : UnveilAccess) : Bool :=
  (first.read && !second.read) || (first.write && !second.write) ||
    (first.execute && !second.execute) ||
    (first.createOrRemove && !second.createOrRemove) ||
    (first.browse && !second.browse)

end UnveilAccess

structure UnveilMetadata where
  fullPath : StringView
  permissions : UnveilAccess
  explicitlyUnveiled : Bool
deriving DecidableEq, Repr

abbrev UnveilNode := Trie StringView UnveilMetadata

def UnveilNode.permissions (node : UnveilNode) : UnveilAccess := node.metadataValue.permissions

def UnveilNode.wasExplicitlyUnveiled (node : UnveilNode) : Bool :=
  node.metadataValue.explicitlyUnveiled

inductive VeilState where
  | none
  | dropped
  | locked
  | lockedInherited
deriving DecidableEq, Repr

structure UnveilData where
  state : VeilState
  paths : UnveilNode

/-- The unveil data of a new process. -/
def UnveilData.empty : UnveilData := ⟨.none, .node ⟨[slash], .nothing, false⟩ []⟩

/-- The options of `open` that the virtual file system looks at. -/
structure OpenOptions where
  rdonly : Bool := false
  wronly : Bool := false
  exec : Bool := false
  creat : Bool := false
  excl : Bool := false
  trunc : Bool := false
  directory : Bool := false
  nofollow : Bool := false
  nofollowNoerror : Bool := false
  unlinkInternal : Bool := false
deriving DecidableEq, Repr

def findMatchingUnveiledPath (veil : UnveilData) (path : StringView) : Option UnveilNode := do
  verify (veil.state != .none)
  let parts ← KLexicalPath.parts path
  return (Trie.traverseUntilLastAccessibleNode parts veil.paths).2.1

/-- What the permissions of the unveiled path allow. -/
def checkPermissions (permissions : UnveilAccess) (options : OpenOptions) : ErrorOr Unit :=
  if permissions = .nothing then .error .ENOENT
  else if options.creat && !permissions.createOrRemove then .error .EACCES
  else if options.unlinkInternal then
    if !permissions.createOrRemove then .error .EACCES else .ok ()
  else if options.rdonly && (if options.directory then
      !(permissions.read || permissions.browse) else !permissions.read) then
    .error .EACCES
  else if options.wronly && !permissions.write then .error .EACCES
  else if options.exec && !permissions.execute then .error .EACCES
  else .ok ()

/-- `validate_path_against_process_veil` of a path. -/
def validatePath (veil : UnveilData) (path : StringView)
    (options : OpenOptions) : Option (ErrorOr Unit) :=
  if veil.state = .none then some (.ok ())
  else do
    verify (StringView.startsWith path [slash])
    verify (!StringView.contains path [slash, dot, dot, slash] &&
      !StringView.endsWith path [slash, dot, dot])
    verify (!StringView.contains path [slash, dot, slash] && !StringView.endsWith path [slash, dot])
    let unveiledPath ← findMatchingUnveiledPath veil path
    return checkPermissions unveiledPath.permissions options

/-- `validate_path_against_process_veil` of a custody. -/
def validateCustody (veil : UnveilData) (custody : Custody)
    (options : OpenOptions) : Option (ErrorOr Unit) :=
  if veil.state = .none then some (.ok ())
  else validatePath veil custody.trySerializeAbsolutePath options

end MixUpOS.Kernel
