import MixUpOS.AK.TrieNodes
import MixUpOS.Kernel.FileSystem.PathResolution
import MixUpOS.Kernel.Syscalls.Unveil

/-!
# Unveiled paths as access control

The permissions of a path are those of the last successful unveil of its longest
unveiled part.  Nodes that only lead to an unveiled path keep a copy of the
permissions above them, and every call keeps these copies in step.
-/

namespace MixUpOS.Kernel

open AK UnveilMetadata Trie UnveilNode StringView Option

/-- The permissions of an explicitly unveiled path. -/
def UnveilMetadata.unveiled (metadata : UnveilMetadata) : Option UnveilAccess :=
  if metadata.explicitlyUnveiled then some metadata.permissions else none

/-- The permissions that a path was explicitly unveiled with. -/
def UnveilNode.unveiledAt (parts : List StringView) (node : UnveilNode) : Option UnveilAccess :=
  markAt unveiled parts node

/-- Every copy of permissions is in step. -/
structure UnveilNode.Consistent (node : UnveilNode) : Prop where
  inherits : Inherits UnveilMetadata.unveiled UnveilMetadata.permissions node
  root : node.metadataValue.unveiled = none → node.permissions = .nothing

theorem UnveilMetadata.permissions_of_unveiled (metadata : UnveilMetadata)
    (access : UnveilAccess) (isUnveiled : metadata.unveiled = some access) :
    metadata.permissions = access := by
  rw [unveiled] at isUnveiled
  split_ifs at isUnveiled
  exact some.inj isUnveiled

section

variable {new : UnveilAccess} {node child : UnveilNode} {metadata : UnveilMetadata}

/-- A node with updated children and changed metadata. -/
def UnveilNode.updated (new : UnveilAccess) (metadata : UnveilMetadata)
    (node : UnveilNode) : UnveilNode :=
  (updateIntermediateNodePermissions new node).setMetadata metadata

/-- What becomes of a child. -/
def UnveilNode.updatedChild (new : UnveilAccess) (child : UnveilNode) : UnveilNode :=
  if child.wasExplicitlyUnveiled then child
  else child.updated new { child.metadataValue with permissions := new }

theorem updateChildrenPermissions_eq (children : List (StringView × UnveilNode)) :
    updateChildrenPermissions new children = children.map fun entry =>
      (entry.1, updatedChild new entry.2) := by
  induction children with
  | nil => rw [updateChildrenPermissions, List.map_nil]
  | cons entry children ih =>
    rw [updateChildrenPermissions, updateChildPermissions, ih, List.map_cons, updatedChild]
    split_ifs <;> rfl

theorem findChild_updated : (node.updated new metadata).findChild value =
      (findChild node value).map (updatedChild new) := by
  cases node with
  | node own children =>
    rw [updated, updateIntermediateNodePermissions, updateChildrenPermissions_eq]
    exact findChild_map _ metadata own children

theorem metadataValue_updated : (node.updated new metadata).metadataValue = metadata := by
  cases node with
  | node own children => rfl

theorem unveiled_updatedChild :
    (updatedChild new child).metadataValue.unveiled = child.metadataValue.unveiled := by
  rw [updatedChild]
  split_ifs with isExplicit
  · rfl
  · rw [metadataValue_updated]
    have notExplicit : child.metadataValue.explicitlyUnveiled = false := by
      simpa [wasExplicitlyUnveiled] using isExplicit
    simp [unveiled, notExplicit]

theorem unveiledAt_updated (notEmpty : parts ≠ []) :
    (node.updated new metadata).unveiledAt parts = node.unveiledAt parts := by
  induction parts generalizing node metadata with
  | nil => exact absurd rfl notEmpty
  | cons value rest ih =>
    rw [unveiledAt, unveiledAt, markAt_cons, markAt_cons, findChild_updated]
    cases findChild node value with
    | none => rfl
    | some child =>
      change markAt _ rest (updatedChild new child) = markAt _ rest child
      cases rest with
      | nil => exact unveiled_updatedChild
      | cons next rest =>
        rw [updatedChild]
        split_ifs with isExplicit
        · rfl
        · exact ih (List.cons_ne_nil _ _)

theorem inherits_updated (isNew : metadata.permissions = new)
    (inherits : Inherits unveiled permissions node) :
    Inherits unveiled permissions (node.updated new metadata) := by
  intro way
  induction way generalizing node metadata with
  | nil =>
    intro parent value child isParent found notUnveiled
    cases isParent
    rw [findChild_updated] at found
    obtain ⟨inner, _, rfl⟩ := map_eq_some_iff.mp found
    rw [metadataValue_updated, isNew]
    rw [updatedChild] at notUnveiled ⊢
    split_ifs at notUnveiled ⊢ with isExplicit
    · change inner.metadataValue.explicitlyUnveiled = true at isExplicit
      rw [unveiled, if_pos isExplicit] at notUnveiled
      cases notUnveiled
    · rw [metadataValue_updated]
  | cons first way ih =>
    intro parent value child isParent
    rw [nodeAt, findChild_updated] at isParent
    cases isInner : findChild node first with
    | none =>
      rw [isInner] at isParent
      cases isParent
    | some inner =>
      rw [isInner] at isParent
      change nodeAt way (updatedChild new inner) = some parent at isParent
      rw [updatedChild] at isParent
      split_ifs at isParent with isExplicit
      · exact inherits.child isInner way parent value child isParent
      · exact ih rfl (inherits.child isInner) parent value child isParent

theorem inherits_setMetadata (same : metadata.permissions = node.permissions)
    (inherits : Inherits unveiled permissions node) :
    Inherits unveiled permissions (setMetadata metadata node) := by
  have children : ∀ value, (setMetadata metadata node).findChild value = findChild node value := by
    intro value
    cases node
    rfl
  have own : (setMetadata metadata node).metadataValue = metadata := by
    cases node
    rfl
  apply inherits_of_children
  · intro value child found notUnveiled
    rw [children] at found
    rw [own, same]
    exact inherits [] node value child rfl found notUnveiled
  · intro value child found
    rw [children] at found
    exact inherits.child found

theorem metadataValue_unveilMatchingNode :
    (unveilMatchingNode new node).metadataValue = { node.metadataValue with
        permissions := new, explicitlyUnveiled := true } := by
  rw [unveilMatchingNode]
  split_ifs
  · exact metadataValue_updated
  · cases node
    rfl

theorem unveilMatchingNode_inherits (inherits : Inherits unveiled permissions node) :
    Inherits unveiled permissions (unveilMatchingNode new node) := by
  rw [unveilMatchingNode]
  split_ifs with changes
  · exact inherits_updated rfl inherits
  · exact inherits_setMetadata (not_not.mp changes).symm inherits

theorem unveiledAt_unveilMatchingNode : (unveilMatchingNode new node).unveiledAt parts =
      if parts = [] then some new else node.unveiledAt parts := by
  cases parts with
  | nil =>
    change (unveilMatchingNode new node).metadataValue.unveiled = _
    rw [metadataValue_unveilMatchingNode]
    rfl
  | cons value rest =>
    rw [if_neg (List.cons_ne_nil _ _), unveilMatchingNode]
    split_ifs
    · exact unveiledAt_updated (List.cons_ne_nil _ _)
    · cases node
      rfl

end

/-- What one half does to the data it works on, or would work on. -/
structure HalfStep (data later : UnveilData) (result : ErrorOr Unit)
    (asked : Bool) (parts : List StringView) (access : UnveilAccess) :
    Prop where
  consistent : later.paths.Consistent
  state : later.state = data.state ∨ later.state = .dropped
  unveiled : ∀ other, later.paths.unveiledAt other =
    if result = .ok () ∧ asked = true ∧ other = parts then some access
    else data.paths.unveiledAt other
  narrows : result = .ok () → asked = true → ∀ before, data.paths.unveiledAt parts = some before →
      access.exceeds before = false

section

variable {data : UnveilData} {access : UnveilAccess} {result : ErrorOr Unit} {node : UnveilNode}
  {way : List StringView}

theorem intermediateMetadata_plain (own : UnveilMetadata) (part : StringView) :
    (intermediateMetadata own part).unveiled = none ∧
      (intermediateMetadata own part).permissions = own.permissions :=
  ⟨rfl, rfl⟩

/-- The metadata of the root stays unless it is unveiled. -/
theorem UnveilNode.Consistent.modifyAt (consistent : data.paths.Consistent)
    (isNode : nodeAt way data.paths = some node)
    (inherits : Inherits UnveilMetadata.unveiled UnveilMetadata.permissions changed)
    (kept : changed.metadataValue.unveiled.isSome = true ∨
      changed.metadataValue = node.metadataValue) :
    Consistent (modifyAt (fun _ => changed) way data.paths) where
  inherits := consistent.inherits.modifyAt isNode inherits kept
  root := by
    cases way with
    | nil =>
      cases isNode
      intro notUnveiled
      change changed.metadataValue.unveiled = none at notUnveiled
      change changed.metadataValue.permissions = .nothing
      rcases kept with isUnveiled | same
      · rw [notUnveiled] at isUnveiled
        cases isUnveiled
      · rw [same] at notUnveiled ⊢
        exact consistent.root notUnveiled
    | cons value way =>
      rw [permissions, metadataValue_modifyAt]
      exact consistent.root

theorem unveiledAt_modifyAt {changed : UnveilNode} (isNode : nodeAt way data.paths = some node)
    (changes : ∀ rest, changed.unveiledAt rest =
      if result = .ok () ∧ rest = left then some access
      else node.unveiledAt rest) (other : List StringView) :
    unveiledAt other (modifyAt (fun _ => changed) way data.paths) =
      if result = .ok () ∧ other = way ++ left then some access
      else data.paths.unveiledAt other := by
  by_cases onWay : way <+: other
  · obtain ⟨rest, rfl⟩ := onWay
    rw [unveiledAt, markAt_modifyAt_append isNode, unveiledAt, markAt_append isNode]
    have here := changes rest
    simp only [List.append_cancel_left_eq]
    exact here
  · rw [unveiledAt, markAt_modifyAt_other onWay, if_neg]
    · rfl
    · rintro ⟨_, rfl⟩
      exact onWay (List.prefix_append _ _)

/-- A half of a call succeeds if its path does not get more permissions and
there is memory for the nodes that are missing. -/
theorem updateUnveilData_step (consistent : data.paths.Consistent)
    (notInherited : data.state ≠ .lockedInherited) (notLocked : data.state ≠ .locked)
    (updated : updateUnveilData data path access memory = some (result, later)) :
    HalfStep data later result true (splitView path slash) access ∧
      ((∀ before, data.paths.unveiledAt (splitView path slash) = some before →
          access.exceeds before = false) → (nodeAt (splitView path slash) data.paths = none →
          memory.path = true ∧ ∀ index, memory.nodes index = true) → result = .ok ()) := by
  obtain ⟨parts, isParts, updated⟩ := bind_eq_some_iff.mp updated
  obtain rfl : splitView path slash = parts := by
    obtain ⟨_, _, isParts⟩ := bind_eq_some_iff.mp isParts
    exact some.inj isParts
  rw [if_neg notInherited, if_neg notLocked] at updated
  cases traversed : traverseUntilLastAccessibleNode (splitView path slash) data.paths with
  | mk way others =>
    obtain ⟨node, left⟩ := others
    obtain ⟨isWay, isNode, ends⟩ := traverse_spec traversed
    simp only [traversed] at updated
    have nodeInherits := consistent.inherits.nodeAt isNode
    by_cases isLast : left = []
    · rw [if_pos isLast] at updated
      subst isLast
      rw [List.append_nil] at isWay
      have before : data.paths.unveiledAt way = node.metadataValue.unveiled := by
        have atNode := @markAt_append _ _ _ _ unveiled data.paths node way [] isNode
        rw [List.append_nil] at atNode
        exact atNode
      rw [isWay]
      split_ifs at updated with elevates
      · -- More permissions than the path has.
        cases updated
        refine ⟨⟨consistent, .inl rfl, by simp, by simp⟩, fun narrows _ => ?_⟩
        rw [Bool.and_eq_true] at elevates
        have notMore := narrows node.metadataValue.permissions (before.trans (if_pos elevates.1))
        exact absurd elevates.2 (Bool.eq_false_iff.mp notMore)
      · cases updated
        refine ⟨⟨?_, .inr rfl, ?_, ?_⟩, fun _ _ => rfl⟩
        · apply consistent.modifyAt isNode (unveilMatchingNode_inherits nodeInherits)
          left
          rw [metadataValue_unveilMatchingNode]
          rfl
        · intro other
          have changes := @unveiledAt_modifyAt data access (.ok ()) node
            way [] (unveilMatchingNode access node) isNode ?_ other
          · simpa using changes
          · intro rest
            rw [unveiledAt_unveilMatchingNode]
            simp
        · intro _ _ old isOld
          rw [before, unveiled] at isOld
          split_ifs at isOld with isExplicit
          rw [← some.inj isOld]
          by_contra exceeds
          apply elevates
          rw [Bool.and_eq_true]
          exact ⟨isExplicit, (Bool.not_eq_false _).mp exceeds⟩
    · rw [if_neg isLast] at updated
      obtain ⟨value, rest, rfl, notFound⟩ := ends.resolve_left isLast
      have missing : nodeAt (splitView path slash) data.paths = none := by
        rw [isWay, nodeAt_append, isNode]
        change nodeAt (value :: rest) node = none
        rw [nodeAt, notFound]
        rfl
      split_ifs at updated with noMemory
      · cases updated
        refine ⟨⟨consistent, .inl rfl, by simp, by simp⟩, fun _ enough => ?_⟩
        simp [(enough missing).1] at noMemory
      · have succeeds : (∀ index, memory.nodes index = true) → (insertBelow
            (⟨path, access, true⟩ : UnveilMetadata) intermediateMetadata
            ((value :: rest).mapIdx fun index part => (part, memory.nodes index)) node).1 =
              .ok () := by
          intro nodeMemory
          apply insertBelow_ok
          intro step member
          obtain ⟨index, _, rfl⟩ := List.mem_mapIdx.mp member
          exact nodeMemory index
        cases inserted : insertBelow ⟨path, access, true⟩ intermediateMetadata
            ((value :: rest).mapIdx fun index part => (part, memory.nodes index)) node with
        | mk outcome changed =>
          simp only [inserted] at updated succeeds
          have isMarked : (unveiled ⟨path, access, true⟩).isSome = true := rfl
          obtain ⟨inherits, same, marks⟩ := insertBelow_spec
            intermediateMetadata_plain isMarked (by simpa [List.mapIdx_cons] using notFound)
            (by simp) nodeInherits inserted
          have isRest : ((value :: rest).mapIdx fun index part =>
              (part, memory.nodes index)).map Prod.fst = value :: rest := by
            apply List.ext_getElem
            · simp
            · intro index _ _
              rw [List.getElem_map, List.getElem_mapIdx]
          have changes := @unveiledAt_modifyAt data access outcome node
            way (value :: rest) changed isNode (by
              intro other
              rw [unveiledAt, marks other, isRest]
              rfl)
          have kept := consistent.modifyAt isNode inherits (.inr (same.resolve_right (by simp)))
          have fresh : data.paths.unveiledAt (splitView path slash) = none := by
            rw [unveiledAt, markAt, missing]
            rfl
          refine ⟨?_, fun _ enough => ?_⟩
          · rw [isWay] at fresh ⊢
            cases outcome with
            | error error =>
              cases updated
              exact ⟨kept, .inl rfl, by simpa using changes, by simp⟩
            | ok _ =>
              cases updated
              refine ⟨kept, .inr rfl, by simpa using changes, ?_⟩
              intro _ _ old isOld
              rw [fresh] at isOld
              cases isOld
          · have isOk := succeeds (enough missing).2
            subst isOk
            cases updated
            rfl

end

/-- The successful calls for the current program, the last one first: the parts
of the unveiled path and its permissions. -/
abbrev UnveilLog := List (List StringView × UnveilAccess)

/-- What a call that returned adds to the log. -/
def UnveilCall.logged (world : World) (call : UnveilCall) (veils : Veils)
    (result : ErrorOr Unit) : UnveilLog :=
  match call.arguments with
  | .error _ => []
  | .ok (path, access) =>
    match unveiledPath { world with veil := veils.current } path access call.serialized with
    | some (.ok resolved) =>
      if result = .ok () ∧ call.currentProgram = true then
        [(splitView resolved slash, access)]
      else []
    | _ => []

/-- The calls of a process from its start. -/
inductive UnveilRun (admits : World → UnveilCall → Veils → Prop) : Veils → UnveilLog → Prop where
  | start : UnveilRun admits ⟨.empty, .empty⟩ []
  | call {veils later : Veils} {log : UnveilLog} {result : ErrorOr Unit}
      (world : World) (call : UnveilCall) :
      UnveilRun admits veils log →
      admits world call veils →
      sysUnveil world call veils = some (result, later) →
      UnveilRun admits later (call.logged world veils result ++ log)

/-- If the call is for both programs, then after the next `execve` the path
would not get more permissions, and memory is there for its missing nodes. -/
def UnveilCall.Whole (world : World) (call : UnveilCall) (veils : Veils) : Prop :=
  call.currentProgram = true → call.afterExec = true →
    ∀ path access resolved, call.arguments = .ok (path, access) →
      unveiledPath { world with veil := veils.current } path access
        call.serialized = some (.ok resolved) →
      (∀ before, veils.exec.paths.unveiledAt (splitView resolved slash) = some before →
          access.exceeds before = false) ∧
      (nodeAt (splitView resolved slash) veils.exec.paths =
        none → call.execMemory.path = true ∧ ∀ index, call.execMemory.nodes index = true)

/-- What holds between calls. -/
structure Veils.Kept (veils : Veils) : Prop where
  current : veils.current.paths.Consistent
  exec : veils.exec.paths.Consistent
  notInherited : veils.current.state ≠ .lockedInherited
  execNotInherited : veils.exec.state ≠ .lockedInherited
  execNotLocked : veils.exec.state ≠ .locked

section

variable {world : World} {call : UnveilCall} {veils later : Veils}
  {result : ErrorOr Unit} {path resolved : StringView} {access : UnveilAccess}

/-- A call locks the veil, fails before it changes anything, or gets to its two
halves. -/
inductive UnveilOutcome (world : World) (call : UnveilCall) (veils : Veils) :
    ErrorOr Unit → Veils → Prop where
  | locks : call.path = none → UnveilOutcome world call veils (.ok ()) { veils with
        current := { veils.current with state := .locked } }
  | refuses (error : ErrNo) : UnveilOutcome world call veils (.error error) veils
  | halves {result : ErrorOr Unit} {later : Veils} (path : StringView)
      {access : UnveilAccess} {resolved : StringView} :
      call.arguments = .ok (path, access) →
      unveiledPath { world with veil := veils.current } path access
        call.serialized = some (.ok resolved) →
      (call.currentProgram = true → veils.current.state ≠ .locked) →
      unveilBoth veils call resolved access = some (result, later) →
      UnveilOutcome world call veils result later

theorem sysUnveil_outcome (notInherited : veils.current.state ≠ .lockedInherited)
    (called : sysUnveil world call veils = some (result, later)) :
    UnveilOutcome world call veils result later := by
  rw [sysUnveil] at called
  split_ifs at called with locks noFlag inherited locked
  · cases called
    exact .locks locks.1
  · cases called
    exact .refuses _
  · simp [notInherited] at inherited
  · cases called
    exact .refuses _
  have unlocked : call.currentProgram = true → veils.current.state ≠ .locked := by
    simpa using locked
  cases isArguments : call.arguments with
  | error error =>
    rw [isArguments] at called
    cases called
    exact .refuses _
  | ok arguments =>
    obtain ⟨path, access⟩ := arguments
    rw [isArguments] at called
    obtain ⟨found, isFound, called⟩ := bind_eq_some_iff.mp called
    cases found with
    | error error =>
      cases called
      exact .refuses _
    | ok resolved => exact .halves path isArguments isFound unlocked called

/-- What comes after the first half. -/
def unveilExec (veils : Veils) (call : UnveilCall) (path : StringView)
    (newPermissions : UnveilAccess) : ErrorOr Unit × UnveilData → Option (ErrorOr Unit × Veils)
  | (.error error, current) =>
    some (.error error, { veils with current := current })
  | (.ok _, current) =>
    if call.afterExec then do
      verify (veils.exec.state != .lockedInherited)
      let (result, exec) ← updateUnveilData veils.exec path newPermissions call.execMemory
      return (result, ⟨current, exec⟩)
    else some (.ok (), { veils with current := current })

/-- The halves of a call: the second one only runs after the first one
succeeded. -/
theorem unveilBoth_halves (called : unveilBoth veils call path access = some (result, later)) :
    ∃ first, (if call.currentProgram then updateUnveilData veils.current path access
        call.currentMemory else some (.ok (), veils.current)) = some (first, later.current) ∧
      (result = first ∧ later.exec = veils.exec ∨ first = .ok () ∧ call.afterExec = true ∧
          updateUnveilData veils.exec path access call.execMemory = some (result, later.exec)) := by
  have asBind : unveilBoth veils call path access =
      (if call.currentProgram then updateUnveilData veils.current path access
        call.currentMemory else some (.ok (), veils.current)).bind
          (unveilExec veils call path access) := by
    split_ifs with asked
    · rw [unveilBoth, if_pos asked]
      apply Option.bind_congr
      rintro ⟨_ | _, current⟩ _ <;> rfl
    · rw [unveilBoth, if_neg asked]
      rfl
  rw [asBind] at called
  obtain ⟨⟨first, current⟩, isFirst, called⟩ := bind_eq_some_iff.mp called
  refine ⟨first, ?_⟩
  cases first with
  | error error =>
    cases called
    exact ⟨isFirst, .inl ⟨rfl, rfl⟩⟩
  | ok _ =>
    simp only [unveilExec] at called
    split_ifs at called with afterExec
    · obtain ⟨_, _, called⟩ := bind_eq_some_iff.mp called
      obtain ⟨⟨second, exec⟩, isSecond, called⟩ := bind_eq_some_iff.mp called
      cases called
      exact ⟨isFirst, .inr ⟨rfl, afterExec, isSecond⟩⟩
    · cases called
      exact ⟨isFirst, .inl ⟨rfl, rfl⟩⟩

theorem HalfStep.state_ne {later : UnveilData} {state : VeilState}
    (step : HalfStep data later result asked parts access) (before : data.state ≠ state)
    (notDropped : .dropped ≠ state) : later.state ≠ state := by
  rcases step.state with same | dropped
  · rwa [same]
  · rwa [dropped]

section

variable (kept : veils.Kept)

include kept

theorem unveilBoth_steps (unlocked : call.currentProgram = true → veils.current.state ≠ .locked)
    (called : unveilBoth veils call path access = some (result, later)) :
    ∃ first, HalfStep veils.current later.current first call.currentProgram
        (splitView path slash) access ∧ (result = first ∧ later.exec = veils.exec ∨
        first = .ok () ∧ call.afterExec = true ∧ HalfStep veils.exec later.exec result true
            (splitView path slash) access ∧
          updateUnveilData veils.exec path access call.execMemory = some (result, later.exec)) := by
  obtain ⟨first, isFirst, halves⟩ := unveilBoth_halves called
  refine ⟨first, ?_, ?_⟩
  · split_ifs at isFirst with asked
    · rw [asked]
      exact (updateUnveilData_step kept.current kept.notInherited (unlocked asked) isFirst).1
    · obtain ⟨_, same⟩ := Prod.mk.inj (some.inj isFirst)
      rw [(Bool.not_eq_true _).mp asked, ← same]
      exact ⟨kept.current, .inl rfl, by simp, nofun⟩
  · rcases halves with same | ⟨succeeds, asked, updated⟩
    · exact .inl same
    · exact .inr ⟨succeeds, asked, (updateUnveilData_step kept.exec kept.execNotInherited
        kept.execNotLocked updated).1, updated⟩

theorem sysUnveil_kept (called : sysUnveil world call veils = some (result, later)) :
    later.Kept := by
  cases sysUnveil_outcome kept.notInherited called with
  | locks _ => exact { kept with notInherited := fun never => by cases never }
  | refuses error => exact kept
  | halves path isArguments isResolved unlocked called =>
    obtain ⟨first, current, exec⟩ := unveilBoth_steps kept unlocked called
    have notInherited := current.state_ne kept.notInherited (by decide)
    rcases exec with ⟨_, same⟩ | ⟨_, _, exec, _⟩
    · exact ⟨current.consistent, same ▸ kept.exec, notInherited, same ▸ kept.execNotInherited,
        same ▸ kept.execNotLocked⟩
    · exact ⟨current.consistent, exec.consistent, notInherited,
        exec.state_ne kept.execNotInherited (by decide),
        exec.state_ne kept.execNotLocked (by decide)⟩

/-- In a whole call the first half succeeds only if the call does, so that the
paths of the current program change as the log does. -/
theorem sysUnveil_logged (whole : call.Whole world veils)
    (called : sysUnveil world call veils = some (result, later))
    (before : ∀ parts, veils.current.paths.unveiledAt parts = log.lookup parts)
    (parts : List StringView) :
    later.current.paths.unveiledAt parts =
      (call.logged world veils result ++ log).lookup parts := by
  cases sysUnveil_outcome kept.notInherited called with
  | locks noPath =>
    have noArguments : call.arguments = .error .EINVAL := by rw [UnveilCall.arguments, noPath]
    rw [UnveilCall.logged, noArguments]
    exact before parts
  | refuses error =>
    have nothing : call.logged world veils (.error error) = [] := by
      rw [UnveilCall.logged]
      split
      · rfl
      · split
        · rw [if_neg (by simp)]
        · rfl
    rw [nothing]
    exact before parts
  | @halves _ _ path access resolved isArguments isResolved unlocked called =>
    obtain ⟨first, current, exec⟩ := unveilBoth_steps kept unlocked called
    have sameResult : call.currentProgram = true → result = first := by
      intro asked
      rcases exec with ⟨same, _⟩ | ⟨succeeds, afterExec, _, updated⟩
      · exact same
      · obtain ⟨narrows, enough⟩ := whole asked afterExec path access resolved
          isArguments isResolved
        rw [succeeds]
        exact (updateUnveilData_step kept.exec kept.execNotInherited kept.execNotLocked
          updated).2 narrows enough
    have isLogged : call.logged world veils result =
        if result = .ok () ∧ call.currentProgram = true then
          [(splitView resolved slash, access)] else [] := by
      simp only [UnveilCall.logged, isArguments, isResolved]
    rw [isLogged, current.unveiled]
    by_cases logs : result = .ok () ∧ call.currentProgram = true
    · rw [if_pos logs, List.cons_append, List.lookup_cons, ← sameResult logs.2]
      by_cases isHere : parts = splitView resolved slash
      · rw [if_pos ⟨logs.1, logs.2, isHere⟩, isHere, beq_self_eq_true]
      · rw [if_neg (fun both => isHere both.2.2), beq_false_of_ne isHere]
        exact before parts
    · rw [if_neg logs, if_neg]
      · exact before parts
      · rintro ⟨succeeds, asked, _⟩
        exact logs ⟨(sameResult asked).trans succeeds, asked⟩

/-- A path that was unveiled keeps its permissions or loses some. -/
def UnveilData.Narrows (data later : UnveilData) : Prop :=
  ∀ parts before, data.paths.unveiledAt parts = some before →
    ∃ after, later.paths.unveiledAt parts = some after ∧ after.exceeds before = false

theorem sysUnveil_narrows (called : sysUnveil world call veils = some (.ok (), later)) :
    veils.current.Narrows later.current ∧ veils.exec.Narrows later.exec := by
  have unchanged : ∀ {data : UnveilData}, data.Narrows data :=
    fun _ before isBefore => ⟨before, isBefore, by simp [UnveilAccess.exceeds]⟩
  have half : ∀ {data later : UnveilData} {asked : Bool}
      {path : List StringView} {access : UnveilAccess},
      HalfStep data later (.ok ()) asked path access → data.Narrows later := by
    intro data later asked path access step parts before isBefore
    rw [step.unveiled]
    split_ifs with changes
    · obtain ⟨_, isAsked, rfl⟩ := changes
      exact ⟨access, rfl, step.narrows rfl isAsked before isBefore⟩
    · exact unchanged parts before isBefore
  cases sysUnveil_outcome kept.notInherited called with
  | locks _ => exact ⟨unchanged, unchanged⟩
  | halves path isArguments isResolved unlocked called =>
    obtain ⟨first, current, exec⟩ := unveilBoth_steps kept unlocked called
    rcases exec with ⟨isFirst, isSame⟩ | ⟨isFirst, _, exec, _⟩
    · rw [← isFirst] at current
      rw [isSame]
      exact ⟨half current, unchanged⟩
    · rw [isFirst] at current
      exact ⟨half current, half exec⟩

end

theorem sysUnveil_locked (locked : veils.current.state = .locked)
    (called : sysUnveil world call veils = some (result, later)) :
    later.current = veils.current := by
  have notInherited : veils.current.state ≠ .lockedInherited := by
    rw [locked]
    decide
  cases sysUnveil_outcome notInherited called with
  | locks _ => rw [← locked]
  | refuses error => rfl
  | halves path isArguments isResolved unlocked called =>
    obtain ⟨first, isFirst, _⟩ := unveilBoth_halves called
    split_ifs at isFirst with asked
    · exact absurd locked (unlocked asked)
    · exact (Prod.mk.inj (some.inj isFirst)).2.symm

end

theorem UnveilRun.kept (run : UnveilRun admits veils log) : veils.Kept := by
  induction run with
  | start =>
    have empty : UnveilData.empty.paths.Consistent := ⟨inherits_leaf, fun _ => rfl⟩
    exact ⟨empty, empty, by decide, by decide, by decide⟩
  | call world call run admitted called kept => exact sysUnveil_kept kept called

theorem UnveilRun.logged (run : UnveilRun UnveilCall.Whole veils log) :
    ∀ parts, veils.current.paths.unveiledAt parts = log.lookup parts := by
  induction run with
  | start =>
    intro parts
    exact (markAt_leaf parts).trans (by simp [unveiled])
  | call world call run whole called before => exact sysUnveil_logged run.kept whole called before

/-- In every state that calls lead to, a path has the permissions of the last
successful unveil of its longest unveiled part, no successful call adds to the
permissions of an unveiled path, and no call changes a locked veil. -/
theorem unveil_longestPrefix {veils : Veils} {log : UnveilLog}
    (run : UnveilRun UnveilCall.Whole veils log) :
    (∀ path, KLexicalPath.isCanonical path = true → veils.current.state ≠ .none →
      ∃ node, findMatchingUnveiledPath veils.current path = some node ∧
        Trie.LongestPrefix (fun parts => log.lookup parts) .nothing
          (StringView.splitView path slash) node.permissions) ∧
    (∀ world call later, sysUnveil world call veils = some (.ok (), later) → ∀ parts before,
        (veils.current.paths.unveiledAt parts = some before →
          ∃ after, later.current.paths.unveiledAt parts = some after ∧
            after.exceeds before = false) ∧ (veils.exec.paths.unveiledAt parts = some before →
          ∃ after, later.exec.paths.unveiledAt parts = some after ∧ after.exceeds before = false)) ∧
    (veils.current.state = .locked → ∀ world call result later,
      sysUnveil world call veils = some (result, later) → later.current = veils.current) := by
  refine ⟨?_, ?_, ?_⟩
  · intro path isCanonical isVeiled
    have longest : Trie.LongestPrefix (fun parts => Trie.markAt UnveilMetadata.unveiled parts
          veils.current.paths) UnveilAccess.nothing
        (StringView.splitView path slash) _ :=
      run.kept.current.inherits.traverse
        UnveilMetadata.permissions_of_unveiled run.kept.current.root
    have marks : (fun parts => Trie.markAt UnveilMetadata.unveiled parts
        veils.current.paths) = fun parts => log.lookup parts := by
      funext parts
      exact run.logged parts
    rw [marks] at longest
    refine ⟨_, ?_, longest⟩
    have veiled : (veils.current.state != .none) = true := by simpa using isVeiled
    rw [findMatchingUnveiledPath, KLexicalPath.parts, veiled, isCanonical]
    rfl
  · intro world call later called parts before
    obtain ⟨current, exec⟩ := sysUnveil_narrows run.kept called
    exact ⟨current parts before, exec parts before⟩
  · intro locked world call result later called
    exact sysUnveil_locked locked called

/-- A call that unveils the directory of the small tree. -/
def unveilDirectory (permissions : StringView) (currentProgram : Bool) : UnveilCall :=
  ⟨some [slash, 100], some permissions, currentProgram, true, .ok (), .ok (),
    ⟨true, fun _ => true⟩, ⟨true, fun _ => true⟩⟩

theorem unveil_longestPrefix_both :
    ∃ later node, sysUnveil smallWorld (unveilDirectory [114] true) ⟨.empty, .empty⟩ =
          some (.ok (), later) ∧
        findMatchingUnveiledPath later.current [slash, 100, slash, 120] = some node ∧
        Trie.LongestPrefix (fun parts => ([([[100]], { read := true })] :
            UnveilLog).lookup parts) .nothing [[100], [120]]
          node.permissions := by
  have whole : (unveilDirectory [114] true).Whole smallWorld ⟨.empty, .empty⟩ := by
    intro _ _ path access resolved _ _
    refine ⟨?_, fun _ => ⟨rfl, fun _ => rfl⟩⟩
    intro before isBefore
    rw [UnveilNode.unveiledAt, UnveilData.empty, Trie.markAt_leaf] at isBefore
    split_ifs at isBefore
    cases isBefore
  obtain ⟨found, _, _⟩ := unveil_longestPrefix
    (UnveilRun.call smallWorld (unveilDirectory [114] true) .start whole rfl)
  obtain ⟨node, isNode, longest⟩ := found [slash, 100, slash, 120] rfl (by decide)
  exact ⟨_, node, rfl, isNode, longest⟩

/-- The directory is unveiled for reading after the next `execve`.  Unveiling it
for reading and writing in both programs fails in its second half. -/
theorem not_longestPrefix_elevated :
    ∃ veils log later node, UnveilRun (fun _ _ _ => True) veils log ∧
        sysUnveil smallWorld (unveilDirectory [114, 119] true) veils = some (.error .EPERM, later) ∧
        findMatchingUnveiledPath later.current [slash, 100] = some node ∧
        ¬ Trie.LongestPrefix (fun parts => ((unveilDirectory [114, 119] true).logged smallWorld
            veils (.error .EPERM) ++ log).lookup parts) .nothing [[100]] node.permissions := by
  refine ⟨_, _, _, _, UnveilRun.call smallWorld (unveilDirectory [114] false)
    .start trivial rfl, rfl, rfl, ?_⟩
  rintro (⟨_, _, isLogged, _⟩ | ⟨_, isNothing⟩)
  · cases isLogged
  · cases isNothing

end MixUpOS.Kernel
