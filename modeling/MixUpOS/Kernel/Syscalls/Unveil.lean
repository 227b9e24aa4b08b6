import MixUpOS.Kernel.FileSystem.VirtualFileSystem

/-!
# The unveil system call

`sys$unveil` changes the unveiled paths of the current program, those of the
program after the next `execve`, or both.  Whether memory is there for a path
or a node is told by an answer.
-/

namespace MixUpOS.Kernel

open AK

mutual

def updateIntermediateNodePermissions (newPermissions : UnveilAccess) : UnveilNode → UnveilNode
  | .node metadata children =>
    .node metadata (updateChildrenPermissions newPermissions children)

/-- The loop over the children. -/
def updateChildrenPermissions (newPermissions : UnveilAccess) :
    List (StringView × UnveilNode) → List (StringView × UnveilNode)
  | [] => []
  | entry :: rest =>
    updateChildPermissions newPermissions entry :: updateChildrenPermissions newPermissions rest

def updateChildPermissions (newPermissions : UnveilAccess) :
    StringView × UnveilNode → StringView × UnveilNode
  | (value, node) =>
    if node.wasExplicitlyUnveiled then (value, node)
    else (value, (updateIntermediateNodePermissions newPermissions node).setMetadata
        { node.metadataValue with permissions := newPermissions })

end

/-- What memory is there for one half of a call: for the path, and for each new
node. -/
structure UnveilMemory where
  path : Bool
  nodes : Nat → Bool

/-- The metadata of a node that only leads to an unveiled path. -/
def intermediateMetadata (parent : UnveilMetadata) (part : StringView) : UnveilMetadata :=
  ⟨parent.fullPath ++ slash :: part, parent.permissions, false⟩

/-- The matching node when its path is unveiled. -/
def unveilMatchingNode (newPermissions : UnveilAccess) (node : UnveilNode) : UnveilNode :=
  let updated := if node.permissions ≠ newPermissions then
    updateIntermediateNodePermissions newPermissions node else node
  updated.setMetadata { node.metadataValue with
    permissions := newPermissions, explicitlyUnveiled := true }

def updateUnveilData (data : UnveilData) (unveiledPath : StringView)
    (newPermissions : UnveilAccess) (memory : UnveilMemory) :
    Option (ErrorOr Unit × UnveilData) := do
  let pathParts ← KLexicalPath.parts unveiledPath
  if data.state = .lockedInherited then return (.ok (), data)
  else if data.state = .locked then return (.error .EPERM, data)
  else
    let (way, matchingNode, left) := Trie.traverseUntilLastAccessibleNode pathParts data.paths
    if left = [] then
      if UnveilNode.wasExplicitlyUnveiled matchingNode &&
          newPermissions.exceeds (UnveilNode.permissions matchingNode) then
        return (.error .EPERM, data)
      else
        return (.ok (), ⟨.dropped, Trie.modifyAt
          (fun _ => unveilMatchingNode newPermissions matchingNode) way
          data.paths⟩)
    else if !memory.path then return (.error .ENOMEM, data)
    else
      let (result, node) := Trie.insertBelow
        ⟨unveiledPath, newPermissions, true⟩ intermediateMetadata
        (left.mapIdx fun index part => (part, memory.nodes index))
        matchingNode
      let paths := Trie.modifyAt (fun _ => node) way data.paths
      match result with
      | .error error => return (.error error, { data with paths := paths })
      | .ok _ => return (.ok (), ⟨.dropped, paths⟩)

/-- The permissions that a string stands for. -/
def parsePermissions : StringView → UnveilAccess → ErrorOr UnveilAccess
  | [], permissions => .ok permissions
  | permission :: rest, permissions =>
    if permission = 114 then
      parsePermissions rest { permissions with read := true }
    else if permission = 119 then
      parsePermissions rest { permissions with write := true }
    else if permission = 120 then
      parsePermissions rest { permissions with execute := true }
    else if permission = 99 then
      parsePermissions rest { permissions with createOrRemove := true }
    else if permission = 98 then
      parsePermissions rest { permissions with browse := true }
    else .error .EINVAL

/-- The arguments of `sys$unveil`, where a null pointer is `none`, and what
copying them and making the unveiled path answer. -/
structure UnveilCall where
  path : Option StringView
  permissions : Option StringView
  currentProgram : Bool
  afterExec : Bool
  copied : ErrorOr Unit
  serialized : ErrorOr Unit
  currentMemory : UnveilMemory
  execMemory : UnveilMemory

/-- The unveil data of a process. -/
structure Veils where
  current : UnveilData
  exec : UnveilData

/-- The path that is unveiled: the absolute path of what the path leads to, or
of a missing last component if it may be created. -/
def unveiledPath (world : World) (path : StringView)
    (newPermissions : UnveilAccess) (serialized : ErrorOr Unit) :
    Option (ErrorOr StringView) := do
  let (custody, parentCustody) ← world.resolvePathWithoutVeil path
    world.context.rootCustody none {} 0
  match custody, parentCustody with
  | .ok custody, _ =>
    return serialized.map fun _ => custody.trySerializeAbsolutePath
  | .error error, none => return .error error
  | .error error, some parent =>
    if error = .ENOENT ∧ newPermissions.createOrRemove then
      match serialized with
      | .error error => return .error error
      | .ok _ => return .ok (← KLexicalPath.tryJoin
          parent.trySerializeAbsolutePath (KLexicalPath.basename path))
    else return .error error

/-- The checks of the arguments: the path and the permissions. -/
def UnveilCall.arguments (call : UnveilCall) : ErrorOr (StringView × UnveilAccess) :=
  match call.path, call.permissions with
  | some path, some permissions =>
    if path = [] then .error .EINVAL
    else if maxPathLen < path.length then .error .ENAMETOOLONG
    else
      match call.copied with
      | .error error => .error error
      | .ok _ =>
        if path.head? ≠ some slash then .error .EINVAL
        else if 5 < permissions.length then .error .E2BIG
        else
          (parsePermissions permissions .nothing).map fun newPermissions => (path, newPermissions)
  | _, _ => .error .EINVAL

/-- The two halves of a call. -/
def unveilBoth (veils : Veils) (call : UnveilCall) (path : StringView)
    (newPermissions : UnveilAccess) : Option (ErrorOr Unit × Veils) := do
  let (result, current) ← if call.currentProgram then
      updateUnveilData veils.current path newPermissions call.currentMemory
    else some (.ok (), veils.current)
  match result with
  | .error error => return (.error error, { veils with current := current })
  | .ok _ =>
    if call.afterExec then
      verify (veils.exec.state != .lockedInherited)
      let (result, exec) ← updateUnveilData veils.exec path newPermissions call.execMemory
      return (result, ⟨current, exec⟩)
    else return (.ok (), { veils with current := current })

def sysUnveil (world : World) (call : UnveilCall) (veils : Veils) : Option (ErrorOr Unit × Veils) :=
  if call.path = none ∧ call.permissions = none then
    some (.ok (), { veils with
      current := { veils.current with state := .locked } })
  else if !call.currentProgram && !call.afterExec then
    some (.error .EINVAL, veils)
  else if call.currentProgram && veils.current.state == .lockedInherited then
    some (.ok (), veils)
  else if call.currentProgram && veils.current.state == .locked then
    some (.error .EPERM, veils)
  else
    match call.arguments with
    | .error error => some (.error error, veils)
    | .ok (path, newPermissions) => do
        match ← unveiledPath { world with veil := veils.current } path
            newPermissions call.serialized with
        | .error error => return (.error error, veils)
        | .ok path => unveilBoth veils call path newPermissions

end MixUpOS.Kernel
