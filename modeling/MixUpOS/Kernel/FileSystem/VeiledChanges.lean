import MixUpOS.Kernel.FileSystem.EntryRemoval
import MixUpOS.Kernel.Syscalls.UnveilLongestPrefix

/-!
# Directory changes behind a veil

Where the entries lie that a process with a veil creates and removes.  `open`,
`unlink` and `rmdir` ask for the permission to create or remove at the path
itself, and `mkdir` asks for it at the path of the parent.
-/

namespace MixUpOS.Kernel

open AK KLexicalPath Option

namespace Custody

/-- The names on the way from the root. -/
def names : Custody → List StringView
  | root _ _ => []
  | child parent name _ _ => parent.names ++ [name]

/-- Where the way to a custody starts. -/
def top : Custody → Custody
  | root inode flags => root inode flags
  | child parent _ _ _ => parent.top

end Custody

/-- The custody is in the tree of the process. -/
structure World.Placed (world : World) (custody : Custody) : Prop where
  attached : custody.Attached world.files
  top : custody.top = world.context.rootCustody

/-- A process with a veil, and a tree without links and mounts. -/
structure World.VeiledTree (world : World) : Prop where
  veiled : world.veil.state ≠ .none
  consistent : world.veil.paths.Consistent
  noMounts : world.context.mounts = []
  rootDirectory : world.files.isDirectory world.context.rootInode = true
  noLinks : ∀ {directory name inode}, world.files.lookup directory name = some inode →
      world.files.isSymlink inode = false
  names : ∀ {directory name inode}, world.files.lookup directory name = some inode →
      name ≠ [] ∧ slash ∉ name
  tidy : world.files.Tidy
  onePath : ∀ {first second}, world.Placed first → world.Placed second →
    world.files.isDirectory first.inode = true →
    first.inode = second.inode → first.names = second.names

section

variable {world : World} {custody : Custody}

theorem splitView_append_slash (front : StringView) (notEmpty : name ≠ [])
    (noSlash : slash ∉ name) :
    StringView.splitView (front ++ slash :: name) slash =
      StringView.splitView front slash ++ [name] := by
  rw [StringView.splitView, List.splitOn_append_cons_self, List.splitOn_eq_singleton noSlash,
    StringView.splitView]
  simp [notEmpty]

section

variable (tree : world.VeiledTree) (attached : custody.Attached world.files)

include tree attached

theorem World.VeiledTree.splitView_serializeNames :
    StringView.splitView custody.serializeNames slash = custody.names := by
  induction custody with
  | root inode flags => rfl
  | child parent name inode flags ih =>
    obtain ⟨_, found, above⟩ := attached
    obtain ⟨notEmpty, noSlash⟩ := tree.names found
    rw [Custody.serializeNames, splitView_append_slash _ notEmpty noSlash, ih above, Custody.names]

theorem World.VeiledTree.splitView_absolutePath :
    StringView.splitView custody.trySerializeAbsolutePath slash = custody.names := by
  cases custody with
  | root inode flags => rfl
  | child parent name inode flags => exact tree.splitView_serializeNames attached

theorem World.VeiledTree.splitView_join (notEmpty : name ≠ []) (noSlash : slash ∉ name)
    (joined : tryJoin custody.trySerializeAbsolutePath name = some path) :
    StringView.splitView path slash = custody.names ++ [name] := by
  obtain ⟨_, _, joined⟩ := bind_eq_some_iff.mp joined
  obtain ⟨_, _, joined⟩ := bind_eq_some_iff.mp joined
  obtain ⟨_, _, joined⟩ := bind_eq_some_iff.mp joined
  have isNames := tree.splitView_absolutePath attached
  split_ifs at joined with isRoot
  · obtain rfl := some.inj joined
    rw [isRoot] at isNames
    rw [← isNames]
    exact splitView_append_slash [] notEmpty noSlash
  · obtain rfl := some.inj joined
    rw [splitView_append_slash _ notEmpty noSlash, isNames]

end

end

/-- The permissions of the nearest unveiled path at or above a path let a file
be created or removed there. -/
def UnveilData.Grants (veil : UnveilData) (parts : List StringView) : Prop :=
  ∃ access, Trie.LongestPrefix (fun part => veil.paths.unveiledAt part)
    .nothing parts access ∧ access.createOrRemove = true

section

variable {world : World} {parts : List StringView}

section

variable {options : OpenOptions} (asks : options.creat = true ∨ options.unlinkInternal = true)

include asks

theorem createOrRemove_of_check (allowed : checkPermissions permissions options = .ok ()) :
    permissions.createOrRemove = true := by
  by_contra missing
  rw [Bool.not_eq_true] at missing
  rw [checkPermissions] at allowed
  by_cases isNothing : permissions = .nothing
  · rw [if_pos isNothing] at allowed
    cases allowed
  rw [if_neg isNothing] at allowed
  by_cases creates : (options.creat && !permissions.createOrRemove) = true
  · rw [if_pos creates] at allowed
    cases allowed
  have unlinks : options.unlinkInternal = true := by
    apply asks.resolve_left
    intro isSet
    exact creates (by rw [isSet, missing]; rfl)
  rw [if_neg creates, if_pos unlinks, if_pos (by rw [missing]; rfl)] at allowed
  cases allowed

theorem World.VeiledTree.grants_of_path (tree : world.VeiledTree)
    (allowed : validatePath world.veil path options = some (.ok ())) :
    world.veil.Grants (StringView.splitView path slash) := by
  rw [validatePath, if_neg tree.veiled] at allowed
  obtain ⟨_, _, allowed⟩ := bind_eq_some_iff.mp allowed
  obtain ⟨_, _, allowed⟩ := bind_eq_some_iff.mp allowed
  obtain ⟨_, _, allowed⟩ := bind_eq_some_iff.mp allowed
  obtain ⟨node, found, allowed⟩ := bind_eq_some_iff.mp allowed
  obtain ⟨_, _, found⟩ := bind_eq_some_iff.mp found
  obtain ⟨pathParts, isParts, found⟩ := bind_eq_some_iff.mp found
  obtain ⟨_, _, isParts⟩ := bind_eq_some_iff.mp isParts
  obtain rfl := some.inj isParts
  obtain rfl := some.inj found
  refine ⟨_, tree.consistent.inherits.traverse
    UnveilMetadata.permissions_of_unveiled tree.consistent.root, ?_⟩
  exact createOrRemove_of_check asks (some.inj allowed)

theorem World.VeiledTree.grants_of_custody (tree : world.VeiledTree)
    (attached : custody.Attached world.files)
    (allowed : validateCustody world.veil custody options = some (.ok ())) :
    world.veil.Grants custody.names := by
  rw [validateCustody, if_neg tree.veiled] at allowed
  rw [← tree.splitView_absolutePath attached]
  exact tree.grants_of_path asks allowed

end

/-- A path that is unveiled itself has the permissions it was unveiled with,
and another one those of its parent. -/
theorem grants_append {veil : UnveilData} (above : veil.Grants parts) :
    veil.Grants (parts ++ [name]) ↔
      ∀ access, veil.paths.unveiledAt (parts ++ [name]) = some access →
        access.createOrRemove = true := by
  constructor
  · rintro ⟨own, longest, granted⟩ access isUnveiled
    rw [(Trie.longestPrefix_self isUnveiled).unique longest]
    exact granted
  · intro ownGranted
    cases isUnveiled : veil.paths.unveiledAt (parts ++ [name]) with
    | some access =>
      exact ⟨access, Trie.longestPrefix_self isUnveiled, ownGranted access isUnveiled⟩
    | none =>
      obtain ⟨access, longest, granted⟩ := above
      refine ⟨access, longest.append ?_, granted⟩
      intro part isPart notAbove
      rw [(List.prefix_concat_iff.mp isPart).resolve_right notAbove]
      exact isUnveiled

end

section

variable {world : World} {parts : List StringView} {count : Nat}

theorem World.Placed.up (placed : world.Placed custody) :
    world.Placed (custody.parent.getD custody) := by
  refine ⟨placed.attached.up, ?_⟩
  rw [← placed.top]
  cases custody <;> rfl

theorem World.Placed.enter (tree : world.VeiledTree) (placed : world.Placed custody)
    (isDirectory : world.files.isDirectory custody.inode = true)
    (found : world.files.lookup custody.inode name = some child) :
    world.Placed (world.enter custody name child) := by
  refine ⟨placed.attached.enter tree.noMounts isDirectory found, ?_⟩
  rw [enter_eq tree.noMounts, ← placed.top]
  rfl

theorem World.Placed.startOf (placed : world.Placed base) :
    world.Placed (world.startOf path base) := by
  rw [World.startOf]
  split_ifs
  · exact ⟨trivial, rfl⟩
  · exact placed

section

variable (tree : world.VeiledTree)

include tree

theorem World.VeiledTree.enter_notLink
    (found : world.files.lookup custody.inode name = some child) :
    world.files.isSymlink (world.enter custody name child).inode = false := by
  rw [enter_inode tree.noMounts]
  exact tree.noLinks found

theorem World.VeiledTree.not_findsLink : ¬ world.FindsLink custody name contents := by
  rintro ⟨_, _, found, isLink, _⟩
  rw [tree.enter_notLink found] at isLink
  cases isLink

theorem Resolves.placed (resolves : Resolves world custody parts target count)
    (placed : world.Placed custody) : world.Placed target := by
  induction resolves with
  | done custody => exact placed
  | stay directory isHere onward ih => exact ih placed
  | up directory onward ih => exact ih placed.up
  | enter directory isName found notLink onward ih =>
    exact ih (placed.enter tree directory found)
  | follow directory finds => exact absurd finds tree.not_findsLink

theorem Misses.placed (misses : Misses world custody parts parent name)
    (placed : world.Placed custody) :
    world.Placed parent ∧ IsName name ∧ ∃ others, parts = others ++ [name] := by
  induction misses with
  | last directory isName notFound => exact ⟨placed, isName, [], rfl⟩
  | @hop _ _ _ part _ _ _ front onward ih =>
    obtain ⟨placed, isName, others, rfl⟩ := ih (front.placed tree placed)
    exact ⟨placed, isName, part :: others, rfl⟩
  | followLast directory finds => exact absurd finds tree.not_findsLink

theorem World.VeiledTree.notMisled : world.NotMisled path base := by
  have clear : ∀ {options next} (parts : List StringView) {custody fate},
      world.walkParts options next parts custody none = some fate →
      ¬ fate.Misleads := by
    intro options next parts
    induction parts with
    | nil =>
      intro custody fate walked
      cases walked
      exact id
    | cons part rest ih =>
      intro custody fate walked
      cases World.walkParts_cases walked with
      | broken => exact Bool.false_ne_true
      | hop _ onward => exact ih onward
      | missing => split_ifs <;> exact id
      | link _ _ found isLink =>
        rw [tree.enter_notLink found] at isLink
        cases isLink
  intro options fate walked
  cases isParts : partsOf path with
  | nil =>
    rw [isParts] at walked
    cases walked
    exact Bool.false_ne_true
  | cons part rest =>
    rw [isParts] at walked
    exact clear _ walked

theorem World.VeiledTree.reported (placed : world.Placed base)
    (resolved : world.resolvePathWithoutVeil path base none options 0 =
      some (.error error, some parent)) :
    ∃ name, Misses world (world.startOf path base) (components path) parent
        name ∧ world.Placed parent ∧ basename path = name ∧ name ≠ [] ∧ slash ∉ name := by
  obtain ⟨_, name, misses⟩ := reports_of_notMisled tree.notMisled resolved
  obtain ⟨parentPlaced, isName, others, split⟩ := misses.placed tree placed.startOf
  obtain ⟨_, _, noSlash, _⟩ := exists_append_of_components split
  exact ⟨name, misses, parentPlaced, basename_eq split isName.2.2, isName.2.2, noSlash⟩

theorem World.VeiledTree.walked_resolves (walked : world.walkParts options next parts custody last =
      some (.found target)) : ∃ count, Resolves world custody parts target count := by
  induction parts generalizing custody with
  | nil =>
    cases walked
    exact ⟨0, .done _⟩
  | cons part rest ih =>
    generalize isFate : Fate.found target = fate at walked
    cases World.walkParts_cases walked with
    | broken => cases isFate
    | hop step onward =>
      subst isFate
      obtain ⟨_, resolves⟩ := ih onward
      exact step.append resolves
    | missing => split_ifs at isFate
    | link _ _ found isLink =>
      rw [tree.enter_notLink found] at isLink
      cases isLink

theorem World.VeiledTree.resolves
    (resolved : world.resolvePath path base none options 0 = some (.ok custody, outParent)) :
    ∃ count, Resolves world (world.startOf path base) (components path) custody count := by
  obtain ⟨_, _, walked⟩ := resolvePath_ok resolved
  obtain ⟨part, rest, isParts⟩ := List.exists_cons_of_ne_nil (components_ne_nil path)
  rw [isParts] at walked ⊢
  exact tree.walked_resolves walked

theorem World.VeiledTree.found (placed : world.Placed base)
    (resolved : world.resolvePath path base none options 0 = some (.ok custody, some parent))
    (notHere : basename path ≠ [dot]) (notUp : basename path ≠ [dot, dot]) :
    world.Placed custody ∧ world.Placed parent ∧ world.files.isDirectory parent.inode = true ∧
      IsName (basename path) ∧ custody.names = parent.names ++ [basename path] := by
  obtain ⟨isParent, notEmpty, _⟩ := resolvePath_ok resolved
  obtain ⟨_, resolves⟩ := tree.resolves resolved
  obtain ⟨others, last, middle, first, second, _, notLast, isLast, front,
    back⟩ := resolves.last_part notEmpty isParent.symm
  rw [isLast] at notHere notUp ⊢
  have isName : IsName last := ⟨notUp, notHere, notLast⟩
  have isDirectory := back.directory
  obtain ⟨child, found, isLink | ends⟩ := back.of_name isName
  · cases isLink.symm.trans (tree.enter_notLink found)
  · have middlePlaced := front.placed tree placed.startOf
    rw [enter_eq tree.noMounts] at ends
    cases ends
    cases isParent
    exact ⟨resolves.placed tree placed.startOf, middlePlaced, isDirectory, isName, rfl⟩

end

end

/-- An operation that creates, removes or renames entries. -/
inductive DirectoryChange where
  | creates (base : Custody) (creation : Creation)
  | removes (removal : Removal)

def World.change (world : World) : DirectoryChange → Option (ErrorOr Unit × Files)
  | .creates base creation => (world.perform base creation).map
      fun result => (result.1.map fun _ => (), result.2)
  | .removes removal => world.remove removal

/-- Every entry of the tree that was created or removed lies where the veil
lets a file be created or removed. -/
def World.Confined (world : World) (later : Files) : Prop :=
  ∀ custody name, world.Placed custody → later.lookup custody.inode name ≠
      world.files.lookup custody.inode name →
    world.veil.Grants (custody.names ++ [name])

namespace DirectoryChange

/-- Paths start in the tree. -/
def Placed (world : World) : DirectoryChange → Prop
  | creates base _ => world.Placed base
  | removes (.unlink _ base) => world.Placed base
  | removes (.rmdir _ base) => world.Placed base
  | removes (.rename oldBase _ newBase _ _) =>
    world.Placed oldBase ∧ world.Placed newBase

def Fresh (world : World) : DirectoryChange → Prop
  | creates base creation => creation.Fresh world base
  | removes _ => True

/-- Operations that ask for the permission where the entry lies. `mkdir` does
so unless the path of the new directory is unveiled itself.  A `rename` that
has nothing to do needs no permission. -/
def Asks (world : World) : DirectoryChange → Prop
  | creates _ (.openPath _ _ _ _ _ _) => True
  | creates base (.mkdir path _ _) => ∀ parent name access,
      Misses world (world.startOf (World.mkdirPath path) base)
        (components (World.mkdirPath path)) parent name →
      world.veil.paths.unveiledAt (parent.names ++ [name]) = some access →
      access.createOrRemove = true
  | removes (.unlink _ _) => True
  | removes (.rmdir _ _) => True
  | removes (.rename oldBase oldPath newBase newPath _) => ∃ old new first second,
      Resolves world (world.startOf oldPath oldBase) (components oldPath) old first ∧
      Resolves world (world.startOf newPath newBase) (components newPath) new second ∧
      old.inode = new.inode
  | _ => False

end DirectoryChange

theorem Files.Adds.changes {files : Files} (adds : files.Adds later directory name inode)
    (other : InodeIdentifier) (part : StringView) :
    later.lookup other part ≠ files.lookup other part ↔ other = directory ∧ part = name := by
  constructor
  · intro changed
    by_contra elsewhere
    exact changed (adds.lookup_old elsewhere)
  · rintro ⟨rfl, rfl⟩
    rw [adds.lookup_new, adds.notFound]
    exact some_ne_none _

section

variable {world : World} (tree : world.VeiledTree)

include tree

/-- One entry of a directory changes. -/
theorem World.VeiledTree.confined_iff (placed : world.Placed parent)
    (isDirectory : world.files.isDirectory parent.inode = true)
    (changes : ∀ directory part, later.lookup directory part ≠ world.files.lookup directory part ↔
      directory = parent.inode ∧ part = name) :
    world.Confined later ↔ world.veil.Grants (parent.names ++ [name]) := by
  constructor
  · intro confined
    exact confined parent name placed ((changes _ _).mpr ⟨rfl, rfl⟩)
  · intro grants other part otherPlaced changed
    obtain ⟨same, rfl⟩ := (changes _ _).mp changed
    rw [← tree.onePath placed otherPlaced isDirectory same.symm]
    exact grants

theorem World.VeiledTree.open_confined {mode : Nat} (placed : world.Placed base)
    (fresh : world.FreshIn base path answer)
    (made : world.openPath path options mode base owner answer driver = some (.ok custody, later)) :
    world.Confined later := by
  by_cases changed : ∃ directory, (later.inodes directory).entries ≠
      (world.files.inodes directory).entries
  · obtain ⟨parent, resolved, creates, created⟩ := openPath_creates made changed
    obtain ⟨name, misses, parentPlaced, rfl, notEmpty, noSlash⟩ :=
      tree.reported placed (resolvePath_error resolved)
    obtain ⟨fullPath, metadata, joined, allowed, added, _⟩ := create_created created
    obtain ⟨adds, _⟩ := createChild_made (fresh (resolvePath_error resolved)) added
    rw [tree.confined_iff parentPlaced misses.isDirectory adds.changes,
      ← tree.splitView_join parentPlaced.attached notEmpty noSlash joined]
    exact tree.grants_of_path (.inl creates) allowed
  · intro other part _ differs
    rw [not_exists] at changed
    rw [Files.lookup, not_not.mp (changed other.inode)] at differs
    exact absurd rfl differs

theorem World.VeiledTree.mkdir_confined {mode : Nat} (placed : world.Placed base)
    (fresh : world.FreshIn base (World.mkdirPath path) answer)
    (made : world.mkdir path mode base answer = some (.ok inode, later)) :
    world.Confined later ↔ (DirectoryChange.creates base (.mkdir path mode answer)).Asks world := by
  obtain ⟨parent, resolved, allowed, created⟩ := mkdir_reported made
  obtain ⟨name, misses, parentPlaced, isName, _⟩ := tree.reported placed resolved
  obtain ⟨adds, _⟩ := createIn_made (fresh resolved) created
  have above := tree.grants_of_custody (.inl rfl) parentPlaced.attached allowed
  rw [tree.confined_iff parentPlaced misses.isDirectory adds.changes, isName, grants_append above]
  constructor
  · intro granted other otherName access otherMisses isUnveiled
    obtain ⟨rfl, rfl⟩ := misses.unique otherMisses
    exact granted access isUnveiled
  · intro asks access isUnveiled
    exact asks parent name access misses isUnveiled

theorem World.VeiledTree.remove_confined (placed : world.Placed base)
    (asks : options.creat = true ∨ options.unlinkInternal = true)
    (resolved : world.resolvePath path base none options 0 = some (.ok custody, some parent))
    (removed : world.files.removeChild parent.inode (basename path) = (.ok (), later)) :
    world.Confined later := by
  by_cases special : basename path = [dot] ∨ basename path = [dot, dot]
  · rw [Files.removeChild, if_pos special] at removed
    cases removed
    intro other part _ changed
    exact absurd rfl changed
  · obtain ⟨notHere, notUp⟩ := not_or.mp special
    obtain ⟨custodyPlaced, parentPlaced, isDirectory, isName, names⟩ :=
      tree.found placed resolved notHere notUp
    have grants := tree.grants_of_custody asks custodyPlaced.attached
      (resolvePath_found resolved).2
    rw [names] at grants
    obtain ⟨removes, _⟩ := Files.removeChild_removes tree.tidy isName removed
    intro other part otherPlaced changed
    rw [removes] at changed
    split_ifs at changed with here
    · rw [here.2, ← tree.onePath parentPlaced otherPlaced isDirectory here.1.symm]
      exact grants
    · exact absurd rfl changed

theorem World.VeiledTree.rename_unchanged
    (asks : (DirectoryChange.removes (.rename oldBase oldPath newBase newPath answer)).Asks world)
    (done : world.rename oldBase oldPath newBase newPath answer = some (.ok (), later)) :
    later = world.files := by
  obtain ⟨old, new, _, _, oldResolves, newResolves, same⟩ := asks
  obtain ⟨oldCustody, _, newResult, _, oldResolved, newResolved, _, _, renamed⟩ :=
    rename_cases done
  obtain ⟨_, resolves⟩ := tree.resolves oldResolved
  obtain rfl := (oldResolves.unique resolves).1
  cases newResult with
  | error error =>
    obtain ⟨_, _, misses⟩ := reports_of_notMisled tree.notMisled (resolvePath_error newResolved)
    exact absurd newResolves misses.not_resolves
  | ok newCustody =>
    obtain ⟨_, resolves⟩ := tree.resolves newResolved
    obtain rfl := (newResolves.unique resolves).1
    unfold World.renameIn at renamed
    simp only [Except.toOption, if_pos same.symm] at renamed
    split_ifs at renamed
    · cases renamed
    all_goals
      cases renamed
      rfl

end

/-- An operation that succeeds and asks for the permission where the entry lies
changes only entries that the veil lets be created or removed.  A successful
`mkdir` that does so has asked. -/
theorem change_confined {world : World} {change : DirectoryChange}
    {later : Files} (tree : world.VeiledTree) (placed : change.Placed world)
    (fresh : change.Fresh world) (done : world.change change = some (.ok (), later)) :
    (change.Asks world → world.Confined later) ∧ ∀ base path mode answer,
        change = .creates base (.mkdir path mode answer) →
        world.Confined later → change.Asks world := by
  cases change with
  | creates base creation =>
    obtain ⟨⟨result, files⟩, made, isResult⟩ := Option.map_eq_some_iff.mp done
    cases result with
    | error error => cases isResult
    | ok inode =>
      cases isResult
      cases creation with
      | openPath path options mode owner answer driver =>
        obtain ⟨⟨opened, files⟩, isOpened, isInode⟩ := Option.map_eq_some_iff.mp made
        cases opened with
        | error error => cases isInode
        | ok custody =>
          cases isInode
          exact ⟨fun _ => tree.open_confined placed fresh isOpened,
            fun _ _ _ _ never => by cases never⟩
      | mkdir path mode answer =>
        have confined := tree.mkdir_confined placed fresh made
        exact ⟨confined.mpr, fun _ _ _ _ _ => confined.mp⟩
      | mknod path mode answer | symlink target path answer
      | link oldPath path answer =>
        exact ⟨False.elim, fun _ _ _ _ never => by cases never⟩
  | removes removal =>
    refine ⟨?_, fun _ _ _ _ never => by cases never⟩
    intro asks
    cases removal with
    | unlink path base =>
      obtain ⟨custody, parent, resolved, _, removed⟩ := unlink_cases done
      exact tree.remove_confined placed (.inr rfl) resolved removed
    | rmdir path base =>
      obtain ⟨custody, parent, resolved, _, _, _, removed⟩ := rmdir_cases done
      exact tree.remove_confined placed (.inl rfl) resolved removed
    | rename oldBase oldPath newBase newPath answer =>
      rw [tree.rename_unchanged asks done]
      exact fun _ _ _ changed => absurd rfl changed

def oneFile : Files where
  inodes := fun inode =>
    if inode = ⟨1, 1⟩ then ⟨⟨0o040755, 0, 0⟩, [([102], ⟨1, 2⟩)], []⟩
    else if inode = ⟨1, 2⟩ then ⟨⟨0o100644, 0, 0⟩, [], []⟩
    else ⟨⟨0, 0, 0⟩, [], []⟩
  isReadonly := fun _ => false

def veiledWorld (paths : UnveilNode) : World :=
  ⟨oneFile, ⟨⟨1, 1⟩, noMountFlags, []⟩, ⟨0, 0, []⟩, ⟨.dropped, paths⟩⟩

def unveiledRoot (access : UnveilAccess) : UnveilNode := .node ⟨[slash], access, true⟩ []

theorem lookup_oneFile (found : oneFile.lookup directory name = some inode) :
    directory = ⟨1, 1⟩ ∧ name = [102] ∧ inode = ⟨1, 2⟩ := by
  simp only [Files.lookup, oneFile] at found
  split_ifs at found with isRoot
  · rw [List.lookup_cons] at found
    cases isName : name == [102] with
    | true =>
      rw [isName] at found
      cases found
      exact ⟨isRoot, beq_iff_eq.mp isName, rfl⟩
    | false =>
      rw [isName] at found
      cases found
  · cases found
  · cases found

theorem names_oneFile (placed : (veiledWorld paths).Placed custody) :
    custody.inode = ⟨1, 1⟩ ∧ custody.names = [] ∨
      custody.inode = ⟨1, 2⟩ ∧ custody.names = [[102]] := by
  induction custody with
  | root inode flags =>
    cases placed.top
    exact .inl ⟨rfl, rfl⟩
  | child parent name inode flags ih =>
    obtain ⟨_, found, attached⟩ := placed.attached
    obtain ⟨isRoot, rfl, rfl⟩ := lookup_oneFile found
    right
    rcases ih ⟨attached, placed.top⟩ with ⟨_, noNames⟩ | ⟨other, _⟩
    · refine ⟨rfl, ?_⟩
      rw [Custody.names, noNames]
      rfl
    · rw [other] at isRoot
      cases isRoot

theorem veiledTree_oneFile : (veiledWorld (unveiledRoot access)).VeiledTree where
  veiled := by
    intro never
    cases never
  consistent := ⟨Trie.inherits_leaf, fun never => by cases never⟩
  noMounts := rfl
  rootDirectory := by
    change oneFile.isDirectory ⟨1, 1⟩ = true
    decide
  noLinks := by
    intro directory name inode found
    obtain ⟨_, _, rfl⟩ := lookup_oneFile found
    change oneFile.isSymlink ⟨1, 2⟩ = false
    decide
  names := by
    intro directory name inode found
    obtain ⟨_, rfl, _⟩ := lookup_oneFile found
    exact ⟨List.cons_ne_nil _ _, by decide⟩
  tidy := by
    intro directory
    simp only [veiledWorld, oneFile]
    split_ifs
    all_goals simp
  onePath := by
    intro first second firstPlaced secondPlaced _ same
    rcases names_oneFile firstPlaced with ⟨isFirst, first⟩ | ⟨isFirst, first⟩
    all_goals
      rcases names_oneFile secondPlaced with ⟨isSecond, second⟩ | ⟨isSecond, second⟩
    · rw [first, second]
    · rw [isFirst, isSecond] at same
      cases same
    · rw [isFirst, isSecond] at same
      cases same
    · rw [first, second]

theorem placed_root : (veiledWorld paths).Placed (veiledWorld paths).context.rootCustody :=
  ⟨trivial, rfl⟩

/-- The file is removed with the permission to do so. -/
theorem change_confined_unlink :
    ∃ later, (veiledWorld (unveiledRoot { write := true, createOrRemove := true })).change
        (.removes (.unlink [slash, 102] (.root ⟨1, 1⟩ noMountFlags))) = some (.ok (), later) ∧
      later.lookup ⟨1, 1⟩ [102] = none ∧
      (veiledWorld (unveiledRoot { write := true, createOrRemove := true })).Confined later :=
  ⟨_, rfl, rfl, (@change_confined _ (.removes (.unlink [slash, 102]
    (.root ⟨1, 1⟩ noMountFlags))) _ veiledTree_oneFile placed_root trivial
      rfl).1 trivial⟩

theorem not_grants_root (limited : access.createOrRemove = false) (name : StringView) :
    ¬ (veiledWorld (unveiledRoot access)).veil.Grants [name] := by
  rintro ⟨own, longest, granted⟩
  have inherited : Trie.LongestPrefix
      (fun part => (unveiledRoot access).unveiledAt part) .nothing [name]
      access := by
    have own : Trie.LongestPrefix (fun part => (unveiledRoot access).unveiledAt part)
        UnveilAccess.nothing [] access := Trie.longestPrefix_self rfl
    apply own.append
    intro part isPart notRoot
    rw [List.prefix_nil] at notRoot
    exact (Trie.markAt_leaf part).trans (if_neg notRoot)
  rw [longest.unique inherited, limited] at granted
  cases granted

theorem not_confined_root {name : StringView}
    (changed : later.lookup ⟨1, 1⟩ name ≠ oneFile.lookup ⟨1, 1⟩ name)
    (notGranted : ¬ (veiledWorld paths).veil.Grants [name]) :
    ¬ (veiledWorld paths).Confined later := by
  intro confined
  exact notGranted (confined _ name placed_root changed)

/-- New entries without the permission to create a file: with a root that may
only be read and written, and with a path that may only be read itself. -/
theorem not_confined_unasked : (∀ change ∈ [DirectoryChange.creates (.root ⟨1, 1⟩ noMountFlags)
          (.mknod [slash, 110] 0o100644 (.ok 3)),
        .creates (.root ⟨1, 1⟩ noMountFlags) (.symlink [102] [slash, 110] (.ok 3)),
        .creates (.root ⟨1, 1⟩ noMountFlags) (.link [slash, 102] [slash, 110] (.ok ())),
        .removes (.rename (.root ⟨1, 1⟩ noMountFlags) [slash, 102]
          (.root ⟨1, 1⟩ noMountFlags) [slash, 110] (.ok ()))],
      ∃ later, (veiledWorld (unveiledRoot { read := true, write := true })).change change =
          some (.ok (), later) ∧
        ¬ (veiledWorld (unveiledRoot { read := true, write := true })).Confined later) ∧
    ∃ later, (veiledWorld (.node ⟨[slash], { createOrRemove := true }, true⟩
          [([110], .node ⟨[slash, 110], { read := true }, true⟩ [])])).change
        (.creates (.root ⟨1, 1⟩ noMountFlags)
          (.mkdir [slash, 110] 0o755 (.ok 3))) = some (.ok (), later) ∧
      ¬ (veiledWorld (.node ⟨[slash], { createOrRemove := true }, true⟩
        [([110], .node ⟨[slash, 110], { read := true }, true⟩ [])])).Confined later := by
  constructor
  · intro change member
    simp only [List.mem_cons, List.not_mem_nil, or_false] at member
    rcases member with rfl | rfl | rfl | rfl
    all_goals
      refine ⟨_, rfl, not_confined_root ?_ (not_grants_root rfl [110])⟩
      decide
  · refine ⟨_, rfl, @not_confined_root _ _ [110] (by decide) ?_⟩
    rintro ⟨own, longest, granted⟩
    have isOwn := longest.unique (Trie.longestPrefix_self rfl)
    rw [isOwn] at granted
    cases granted

end MixUpOS.Kernel
