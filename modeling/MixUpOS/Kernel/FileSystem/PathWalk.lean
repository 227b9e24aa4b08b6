import MixUpOS.Kernel.FileSystem.VirtualFileSystem

/-!
# Walks along the components of a path

The resolution of a path is a walk along its components.  A walk keeps the
target of the link that it followed last; what the resolution leaves in
`*out_parent` can be told from how the walk ends.
-/

namespace MixUpOS.Kernel

open AK List

/-- How a walk ends. -/
inductive Fate where
  | found (custody : Custody)
  /-- The last component has no entry. -/
  | missing (directory : Custody) (name : StringView)
  /-- The last component is a link whose contents end so. -/
  | danglingLast (directory : Custody) (name : StringView)
  /-- Another component is a link whose contents end so. -/
  | dangling (directory : Custody) (name : StringView)
  /-- Another component has no entry. -/
  | absent
  /-- The walk could not go on. -/
  | broken (error : ErrNo) (last : Option Custody)
deriving DecidableEq

namespace Fate

/-- What the resolution returns and leaves in `*out_parent`. -/
def resolution : Fate → Resolution
  | found custody => (.ok custody, custody.parent)
  | missing directory _ => (.error .ENOENT, some directory)
  | danglingLast directory _ => (.error .ENOENT, some directory)
  | dangling directory _ => (.error .ENOENT, some directory)
  | absent => (.error .ENOENT, none)
  | broken error last => (.error error, last.bind Custody.parent)

end Fate

/-- The components of a path; an empty path has none. -/
def partsOf (path : StringView) : List StringView :=
  if path.isEmpty then [] else components path

theorem partsOf_of_ne_nil (notEmpty : path ≠ []) : partsOf path = components path := by
  rw [partsOf, if_neg]
  simpa using notEmpty

/-- Walks from a custody along components, with the target of the last link. -/
abbrev Walker := Custody → List StringView → Option Custody → Option Fate

namespace World

variable (world : World) (options : OpenOptions)

/-- Goes on from the target of a link. -/
def walkOn (next : Walker) (rest : List StringView) : Fate → Option Fate
  | .found target => do
      match ← validateCustody world.veil target options with
      | .error error => return .broken error none
      | .ok _ =>
        if rest = [] then return .found target
        else next target ([dot] :: rest) (some target)
  | .missing directory name =>
    some (if rest = [] then .danglingLast directory name
      else .dangling directory name)
  | .danglingLast directory name =>
    some (if rest = [] then .danglingLast directory name
      else .dangling directory name)
  | fate => some fate

/-- A link on the way. -/
def walkLink (next : Walker) (parent link : Custody)
    (rest : List StringView) (last : Option Custody) : Option Fate :=
  if rest = [] ∧ options.nofollow then some (.broken .ELOOP last)
  else if rest = [] ∧ options.nofollowNoerror then some (.found link)
  else if !world.safeToFollowSymlink link.inode (world.files.metadata parent.inode) then
    some (.broken .EACCES last)
  else do
    match ← validateCustody world.veil link options with
    | .error error => return .broken error last
    | .ok _ =>
      let contents := (world.files.inodes link.inode).contents
      verify (decide (contents.length ≤ maxPathLen))
      let fate ← next (world.startOf contents parent) (partsOf contents) last
      world.walkOn options next rest fate

/-- A walk along components. -/
def walkParts (next : Walker) : List StringView → Custody → Option Custody → Option Fate
  | [], custody, _ => some (.found custody)
  | part :: rest, custody, last =>
    if !world.files.isDirectory custody.inode then
      some (.broken .ENOTDIR last)
    else if !(world.files.metadata custody.inode).mayExecute world.credentials then
      some (.broken .EACCES last)
    else if part = [dot, dot] then
      walkParts next rest (custody.parent.getD custody) last
    else if part = [dot] ∨ part = [] then walkParts next rest custody last
    else
      match world.files.lookup custody.inode part with
      | none => some (if rest = [] then .missing custody part else .absent)
      | some child =>
        let entered := world.enter custody part child
        if world.files.isSymlink entered.inode then
          world.walkLink options next custody entered rest last
        else walkParts next rest entered last

/-- A walk with a number of levels that are left. -/
def walkAtLevel : Nat → Walker
  | 0, _, _, last => some (.broken .ELOOP last)
  | _ + 1, _, [], last => some (.broken .EINVAL last)
  | levels + 1, custody, part :: rest, last =>
    world.walkParts options (walkAtLevel levels) (part :: rest) custody last

end World

/-- The components that are left of a path that the lexer has consumed a part
of. -/
structure Lexes (input : StringView) (extraIteration : Bool) (parts : List StringView) : Prop where
  trailing : input ≠ [] → extraIteration = (input.getLast? == some slash)
  parts : parts = if input = [] then (if extraIteration then [[]] else [])
    else components input

section

variable {parts : List StringView}

theorem Lexes.step (lexes : Lexes input extraIteration parts)
    (more : (input.isEmpty && !extraIteration) = false) :
    ∃ others, parts = firstPart input :: others ∧ Lexes ((afterFirstPart input).drop 1)
        (extraIteration && !input.isEmpty) others ∧ (!((afterFirstPart input).drop 1).isEmpty ||
        (extraIteration && !input.isEmpty)) = decide (others ≠ []) ∧
      (firstPart input ≠ [] → others ≠ [] →
        partsOf (dot :: afterFirstPart input) = [dot] :: others) := by
  have isParts := lexes.parts
  by_cases isEmpty : input = []
  · -- The extra iteration behind a trailing slash.
    subst isEmpty
    have extra : extraIteration = true := by simpa using more
    rw [extra] at isParts
    refine ⟨[], isParts, ⟨fun never => absurd rfl never, ?_⟩, ?_, ?_⟩
    · simp [afterFirstPart]
    · simp [afterFirstPart]
    · intro _ never
      exact absurd rfl never
  · rw [if_neg isEmpty] at isParts
    have isLast := lexes.trailing isEmpty
    have some : input.isEmpty = false := by simpa using isEmpty
    have whole := firstPart_append input
    rw [some, Bool.not_false, Bool.and_true]
    rcases afterFirstPart_cases input with nothing | ⟨rest, isRest⟩
    · -- The last component.
      rw [nothing, append_nil] at whole
      have notSlash : extraIteration = false := by
        rw [isLast, beq_eq_false_iff_ne]
        intro atEnd
        apply slash_notMem_firstPart input
        rw [whole]
        exact mem_of_getLast? atEnd
      rw [components_of_nothing nothing] at isParts
      refine ⟨[], isParts, ⟨?_, ?_⟩, ?_, ?_⟩
      · rw [nothing]
        intro never
        exact absurd rfl never
      · simp [nothing, notSlash]
      · simp [nothing, notSlash]
      · intro _ never
        exact absurd rfl never
    · rw [components_of_more isRest] at isParts
      rw [isRest] at whole
      have others : components rest ≠ [] := components_ne_nil rest
      refine ⟨components rest, isParts, ⟨?_, ?_⟩, ?_, ?_⟩
      · rw [isRest, drop_one, tail_cons]
        intro restSome
        rw [isLast, ← whole, getLast?_append, getLast?_cons_of_ne_nil restSome]
        cases found : rest.getLast? with
        | none => exact absurd (getLast?_eq_none_iff.mp found) restSome
        | some last => rfl
      · rw [isRest, drop_one, tail_cons]
        by_cases restEmpty : rest = []
        · have atEnd : extraIteration = true := by
            rw [isLast, ← whole, restEmpty]
            simp
          rw [atEnd, restEmpty]
          rfl
        · rw [if_neg restEmpty]
      · rw [isRest]
        by_cases restEmpty : rest = []
        · have atEnd : extraIteration = true := by
            rw [isLast, ← whole, restEmpty]
            simp
          simp [atEnd, others]
        · simp [restEmpty, others]
      · intro _ _
        rw [partsOf, isRest]
        have dotted : components (dot :: slash :: rest) = [dot] :: components rest :=
          splitOn_append_cons_self [dot] rest
        simpa using dotted

end

namespace World

variable {world : World}

/-- A resolver at a level does what a walker does. -/
def Follows (world : World) (resolver : Resolver) (walker : Walker) : Prop :=
  ∀ path base last, resolver path base (Option.bind last Custody.parent) =
    (walker (world.startOf path base) (partsOf path) last).map Fate.resolution

theorem resolveAsLink_follows {next : Resolver} {walker : Walker}
    (follows : world.Follows next walker) (inode : InodeIdentifier)
    (base : Custody) (last : Option Custody) :
    world.resolveAsLink options next inode base (last.bind Custody.parent) =
      (verify (decide ((world.files.inodes inode).contents.length ≤ maxPathLen))).bind fun _ =>
      (walker (world.startOf (world.files.inodes inode).contents base)
        (partsOf (world.files.inodes inode).contents) last).bind fun fate =>
      match fate with
      | .found target => (validateCustody world.veil target options).map
          fun result => match result with
            | .error error => (.error error, none)
            | .ok _ => (.ok target, target.parent)
      | fate => some fate.resolution := by
  rw [resolveAsLink]
  rw [resolveWithVeil, follows]
  cases walked : walker (world.startOf (world.files.inodes inode).contents base)
      (partsOf (world.files.inodes inode).contents) last with
  | none => rfl
  | some fate =>
    cases fate with
    | found target =>
      simp only [Option.map_some, Fate.resolution, Option.bind_eq_bind, Option.bind_some]
      cases validateCustody world.veil target options with
      | none => rfl
      | some result => cases result <;> rfl
    | missing directory name | danglingLast directory name
    | dangling directory name | absent | broken error last => rfl

theorem ite_eq_map [Decidable condition] {otherFate : Option Fate}
    (taken : first = fate.map Fate.resolution)
    (other : ¬ condition → second = otherFate.map Fate.resolution) :
    (if condition then first else second) =
      (if condition then fate else otherFate).map Fate.resolution := by
  split_ifs with holds
  · exact taken
  · exact other holds

theorem startOf_dot (after : StringView) (base : Custody) :
    world.startOf (dot :: after) base = base := rfl

theorem followLink_follows {next : Resolver} {walker : Walker} (follows : world.Follows next walker)
    {parent link : Custody} {after : StringView} {others : List StringView} {haveMoreParts : Bool}
    (more : haveMoreParts = decide (others ≠ []))
    (rest : others ≠ [] → partsOf (dot :: after) = [dot] :: others) (last : Option Custody) :
    world.followLink options next parent link after haveMoreParts (last.bind Custody.parent) =
      (world.walkLink options walker parent link others last).map Fate.resolution := by
  have isMore : (!haveMoreParts) = decide (others = []) := by
    rw [more]
    by_cases isEmpty : others = [] <;> simp [isEmpty]
  rw [followLink, isMore]
  simp only [Bool.and_eq_true, decide_eq_true_eq]
  refine ite_eq_map rfl fun _ => ite_eq_map rfl fun _ => ite_eq_map rfl fun _ => ?_
  rw [resolveAsLink_follows follows]
  simp only [Option.bind_eq_bind, Option.map_bind]
  congr 1
  funext allowed
  cases allowed with
  | error error => rfl
  | ok _ =>
    simp only [Function.comp_apply, Option.bind_assoc, Option.map_bind]
    congr 1
    funext _
    congr 1
    funext fate
    cases fate with
    | found target =>
      simp only [walkOn, Option.bind_map, Option.bind_eq_bind, Option.map_bind]
      congr 1
      funext result
      cases result with
      | error error => rfl
      | ok _ =>
        by_cases isLast : others = []
        · simp [isLast, Fate.resolution]
        · have onward := follows (dot :: after) target (some target)
          rw [rest isLast, startOf_dot] at onward
          simpa [isLast] using onward
    | missing directory name | danglingLast directory name =>
      by_cases isLast : others = [] <;> simp [walkOn, isLast, Fate.resolution]
    | dangling directory name | absent | broken error last => rfl

theorem resolveLoop_follows {next : Resolver} {walker : Walker} {parts : List StringView}
    {fuel : Nat} {input : StringView} {extraIteration : Bool} {last : Option Custody}
    (follows : world.Follows next walker) (lexes : Lexes input extraIteration parts)
    (enough : parts.length < fuel) (custody : Custody) :
    world.resolveLoop options next fuel input extraIteration custody (last.bind Custody.parent) =
      (world.walkParts options walker parts custody last).map Fate.resolution := by
  induction parts generalizing fuel input extraIteration custody with
  | nil =>
    obtain ⟨fuel, rfl⟩ : ∃ previous, fuel = previous + 1 := ⟨fuel - 1, by omega⟩
    have done : (input.isEmpty && !extraIteration) = true := by
      by_contra more
      obtain ⟨others, isParts, _⟩ := lexes.step (by simpa using more)
      cases isParts
    rw [resolveLoop, if_pos done]
    rfl
  | cons part others ih =>
    obtain ⟨fuel, rfl⟩ : ∃ previous, fuel = previous + 1 := ⟨fuel - 1, by omega⟩
    rw [length_cons] at enough
    have more : (input.isEmpty && !extraIteration) = false := by
      by_contra done
      have isParts := lexes.parts
      simp only [Bool.not_eq_false, Bool.and_eq_true, List.isEmpty_iff, Bool.not_eq_true'] at done
      rw [if_pos done.1, done.2] at isParts
      cases isParts
    obtain ⟨rest, isParts, restLexes, haveMore, onward⟩ := lexes.step more
    obtain ⟨rfl, rfl⟩ := cons.inj isParts
    have goOn := @ih fuel _ _ restLexes (by omega)
    simp only [resolveLoop, more, Bool.false_eq_true, if_false, walkParts, Files.isDirectory]
    refine ite_eq_map rfl fun _ => ite_eq_map rfl fun _ =>
      ite_eq_map (goOn _) fun _ => ite_eq_map (goOn _) fun notHere => ?_
    rw [haveMore]
    cases found : world.files.lookup custody.inode (firstPart input) with
    | none =>
      by_cases isLast : others = [] <;>
        simp [isLast, Fate.resolution]
    | some child =>
      refine ite_eq_map (followLink_follows follows rfl ?_ last) fun _ => goOn _
      exact onward fun isEmpty => notHere (.inr isEmpty)

theorem components_length_le (view : StringView) : (components view).length ≤ view.length + 1 := by
  rw [components]
  induction view with
  | nil => simp
  | cons first rest ih =>
    rw [splitOn_cons_eq_if_modifyHead]
    split_ifs
    · simpa using ih
    · rw [length_modifyHead, length_cons]
      omega

/-- The resolution of a path is a walk along its components. -/
theorem resolveAtLevel_follows (levels : Nat) :
    world.Follows (world.resolveAtLevel options levels) (world.walkAtLevel options levels) := by
  induction levels with
  | zero =>
    intro path base last
    rfl
  | succ levels ih =>
    intro path base last
    by_cases isEmpty : path = []
    · subst isEmpty
      rfl
    have some : path.isEmpty = false := by simpa using isEmpty
    have parts := partsOf_of_ne_nil isEmpty
    have length := components_length_le path
    rw [← parts] at length
    rw [resolveAtLevel, some]
    have lexes : Lexes path (path.getLast? == .some slash) (partsOf path) :=
      ⟨fun _ => rfl, by rw [parts, if_neg isEmpty]⟩
    rw [resolveLoop_follows ih lexes (by omega)]
    cases notEmpty : partsOf path with
    | nil => exact absurd (parts ▸ notEmpty) (components_ne_nil path)
    | cons part rest => rfl

end World

end MixUpOS.Kernel
