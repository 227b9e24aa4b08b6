import MixUpOS.Kernel.FileSystem.UnveilNode

/-!
# Path resolution

`resolve_path_without_veil` with the functions that it and the contents of a
link call each other through.  `none` is a failed `VERIFY`.

What `*out_parent` holds is passed in and out.  A caller that passes no
`out_parent` does not look at it.
-/

namespace MixUpOS.Kernel

open AK

def maxPathLen : Nat := 4096

def symlinkRecursionLimit : Nat := 8

/-- What path resolution depends on. -/
structure World where
  files : Files
  context : VFSRootContext
  credentials : Credentials
  veil : UnveilData

/-- A custody or an error, and what is left in `*out_parent`. -/
abbrev Resolution := ErrorOr Custody × Option Custody

/-- Resolves a path from a base, with what `*out_parent` holds. -/
abbrev Resolver := StringView → Custody → Option Custody → Option Resolution

namespace World

variable (world : World)

def safeToFollowSymlink (inode : InodeIdentifier) (parentMetadata : InodeMetadata) : Bool :=
  let metadata := world.files.metadata inode
  if world.credentials.euid == metadata.uid then true
  else if !(isSticky parentMetadata.mode && parentMetadata.mode &&& 0o2 != 0) then true
  else metadata.uid == parentMetadata.uid

/-- `resolve_path` around a resolution without the veil. -/
def resolveWithVeil (options : OpenOptions) (resolver : Resolver) :
    Resolver := fun path base outParent => do
  let (result, outParent) ← resolver path base outParent
  match result with
  | .error error => return (.error error, outParent)
  | .ok custody =>
    match ← validateCustody world.veil custody options with
    | .error error => return (.error error, none)
    | .ok _ => return (.ok custody, outParent)

/-- `Inode::resolve_as_link`, with the resolution at the next level. -/
def resolveAsLink (options : OpenOptions) (next : Resolver)
    (inode : InodeIdentifier) (base : Custody) (outParent : Option Custody) :
    Option Resolution := do
  let contents := (world.files.inodes inode).contents
  verify (decide (contents.length ≤ maxPathLen))
  world.resolveWithVeil options next contents base outParent

/-- The custody of an entry of a directory: the host, or what is mounted on
it. -/
def enter (parent : Custody) (part : StringView) (child : InodeIdentifier) : Custody :=
  let current := Custody.child parent part child parent.mountFlags
  match world.context.currentMountState current with
  | some (guest, flags) => .child parent part guest flags
  | none => current

/-- A link on the way: `after` is what comes behind its name in the path. -/
def followLink (options : OpenOptions) (next : Resolver) (parent : Custody)
    (link : Custody) (after : StringView) (haveMoreParts : Bool)
    (outParent : Option Custody) : Option Resolution :=
  if !haveMoreParts && options.nofollow then some (.error .ELOOP, outParent)
  else if !haveMoreParts && options.nofollowNoerror then
    some (.ok link, link.parent)
  else if !world.safeToFollowSymlink link.inode (world.files.metadata parent.inode) then
    some (.error .EACCES, outParent)
  else do
    match ← validateCustody world.veil link options with
    | .error error => return (.error error, outParent)
    | .ok _ =>
      let (target, outParent) ← world.resolveAsLink options next link.inode parent outParent
      match target with
      | .error error => return (.error error, outParent)
      | .ok target =>
        if !haveMoreParts then return (.ok target, outParent)
        else next (dot :: after) target outParent

/-- The loop of `resolve_path_without_veil`: `input` is what the lexer has not
consumed. -/
def resolveLoop (options : OpenOptions) (next : Resolver) :
    Nat → StringView → Bool → Custody → Option Custody → Option Resolution
  | 0, _, _, _, _ => none
  | fuel + 1, input, extraIteration, custody, outParent =>
    if input.isEmpty && !extraIteration then
      some (.ok custody, custody.parent)
    else
      let extraIteration := extraIteration && !input.isEmpty
      let part := firstPart input
      let after := afterFirstPart input
      let rest := after.drop 1
      let parentMetadata := world.files.metadata custody.inode
      if !isDirectory parentMetadata.mode then
        some (.error .ENOTDIR, outParent)
      else if !parentMetadata.mayExecute world.credentials then
        some (.error .EACCES, outParent)
      else
        let haveMoreParts := !rest.isEmpty || extraIteration
        if part = [dot, dot] then
          resolveLoop options next fuel rest extraIteration (custody.parent.getD custody) outParent
        else if part = [dot] ∨ part = [] then
          resolveLoop options next fuel rest extraIteration custody outParent
        else
          match world.files.lookup custody.inode part with
          | none =>
            some (.error .ENOENT,
              if haveMoreParts then none else some custody)
          | some child =>
            let entered := world.enter custody part child
            if world.files.isSymlink entered.inode then
              world.followLink options next custody entered after haveMoreParts outParent
            else
              resolveLoop options next fuel rest extraIteration entered outParent

/-- Where the resolution of a path starts. -/
def startOf (path : StringView) (base : Custody) : Custody :=
  if path.head? == some slash then world.context.rootCustody else base

/-- `resolve_path_without_veil` with the number of levels that are left. -/
def resolveAtLevel (options : OpenOptions) : Nat → Resolver
  | 0, _, _, outParent => some (.error .ELOOP, outParent)
  | levels + 1, path, base, outParent =>
    if path.isEmpty then some (.error .EINVAL, outParent)
    else
      world.resolveLoop options (resolveAtLevel options levels)
        (path.length + 2) path (path.getLast? == some slash)
        (world.startOf path base) outParent

def resolvePathWithoutVeil (path : StringView) (base : Custody)
    (outParent : Option Custody) (options : OpenOptions)
    (symlinkRecursionLevel : Nat) : Option Resolution :=
  world.resolveAtLevel options (symlinkRecursionLimit - symlinkRecursionLevel) path base outParent

def resolvePath (path : StringView) (base : Custody)
    (outParent : Option Custody) (options : OpenOptions)
    (symlinkRecursionLevel : Nat) : Option Resolution :=
  world.resolveWithVeil options (world.resolveAtLevel options
      (symlinkRecursionLimit - symlinkRecursionLevel)) path base outParent

end World

end MixUpOS.Kernel
