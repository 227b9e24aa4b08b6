import MixUpOS.Kernel.FileSystem.AddedEntries

/-!
# Entries that are created

`open`, `mkdir`, `mknod`, `symlink` and `link` take the directory of a new entry
from the resolution of the path, and its name from the text of the path.  The
two belong together if everything before the last component leads to a directory
that has no entry for the last component.
-/

namespace MixUpOS.Kernel

open AK KLexicalPath Option

/-- An operation that creates an entry, with what the file system and a driver
answer. -/
inductive Creation where
  | openPath (path : StringView) (options : OpenOptions) (mode : Nat)
      (owner : Option (Nat × Nat)) (answer : ErrorOr Nat)
      (driver : ErrorOr Unit)
  | mkdir (path : StringView) (mode : Nat) (answer : ErrorOr Nat)
  | mknod (path : StringView) (mode : Nat) (answer : ErrorOr Nat)
  | symlink (target path : StringView) (answer : ErrorOr Nat)
  | link (oldPath path : StringView) (answer : ErrorOr Unit)

/-- What an operation returns: the inode that was opened, created or linked. -/
def World.perform (world : World) (base : Custody) :
    Creation → Option (ErrorOr InodeIdentifier × Files)
  | .openPath path options mode owner answer driver =>
    (world.openPath path options mode base owner answer driver).map
      fun result => (result.1.map Custody.inode, result.2)
  | .mkdir path mode answer => world.mkdir path mode base answer
  | .mknod path mode answer => world.mknod path mode base answer
  | .symlink target path answer => world.symlink target path base answer
  | .link oldPath path answer => world.link oldPath path base answer

namespace Creation

/-- The path that is resolved. -/
def resolvedPath : Creation → StringView
  | openPath path _ _ _ _ _ => path
  | mkdir path _ _ => World.mkdirPath path
  | mknod path _ _ => path
  | symlink _ path _ => path
  | link _ path _ => path

/-- The mode of what `open` creates. -/
def createdMode (mode : Nat) : Nat :=
  if !isSocket mode && !isFifo mode && !isBlockDevice mode &&
    !isCharacterDevice mode then mode ||| 0o100000 else mode

/-- The mode of a new inode. -/
def newMode : Creation → Option Nat
  | openPath _ _ mode _ _ _ => some (createdMode mode)
  | mkdir _ mode _ => some (0o040000 ||| mode)
  | mknod _ mode _ => some mode
  | symlink _ _ _ => some 0o120644
  | link _ _ _ => none

/-- No caller of `open` passes the mode of a link. -/
def Proper : Creation → Prop
  | openPath _ _ mode _ _ _ => isSymlink mode = false
  | _ => True

end Creation

/-- A new inode gets an index that is unused in the file system of the parent. -/
def World.FreshIn (world : World) (base : Custody) (path : StringView)
    (answer : ErrorOr Nat) : Prop :=
  ∀ ⦃options error parent⦄, world.resolvePathWithoutVeil path base none options 0 =
      some (.error error, some parent) →
    ∀ index, answer = .ok index → world.Unused base ⟨parent.inode.fsid, index⟩

def Creation.Fresh (world : World) (base : Custody) : Creation → Prop
  | openPath path _ _ _ answer _ | mknod path _ answer | symlink _ path answer =>
    world.FreshIn base path answer
  | mkdir path _ answer => world.FreshIn base (World.mkdirPath path) answer
  | link _ _ _ => True

section

variable {world : World} {parent : Custody} {answer : ErrorOr Nat}

section

variable (fresh : ∀ index, answer = .ok index → world.Unused base ⟨parent.inode.fsid, index⟩)

include fresh

theorem createChild_made
    (created : world.files.createChild parent.inode name metadata answer = (.ok inode, later)) :
    world.files.Adds later parent.inode name inode ∧
      later.metadata inode = metadata ∧ world.Unused base inode := by
  obtain ⟨adds, isMetadata, _, index, isIndex, rfl⟩ :=
    Files.createChild_adds created fun index isIndex =>
      ⟨(fresh index isIndex).notInUse, (fresh index isIndex).noEntries⟩
  exact ⟨adds, isMetadata, fresh index isIndex⟩

theorem createIn_made (created : world.createIn parent name metadata answer = (.ok inode, later)) :
    world.files.Adds later parent.inode name inode ∧
      later.metadata inode = metadata ∧ world.Unused base inode := by
  rw [World.createIn] at created
  split_ifs at created
  · cases created
  · cases created
  · exact createChild_made fresh created

end

theorem mkdir_reported (made : world.mkdir path mode base answer = some (.ok inode, later)) :
    ∃ parent, world.resolvePathWithoutVeil (World.mkdirPath path) base none
        {} 0 = some (.error .ENOENT, some parent) ∧
      validateCustody world.veil parent { creat := true } = some (.ok ()) ∧
      world.createIn parent (basename (World.mkdirPath path))
        (world.ownMetadata (0o040000 ||| mode)) answer = (.ok inode, later) := by
  obtain ⟨⟨result, parentCustody⟩, resolved, made⟩ := bind_eq_some_iff.mp made
  cases result with
  | ok custody => cases made
  | error error =>
    cases parentCustody with
    | none => cases made
    | some parent =>
      obtain ⟨_, isVerified, checked⟩ := bind_eq_some_iff.mp made
      have isMissing : error = .ENOENT := by
        by_contra notMissing
        rw [decide_eq_false notMissing] at isVerified
        cases isVerified
      obtain ⟨allowed, asked, created⟩ := bind_eq_some_iff.mp checked
      cases allowed with
      | error error => cases created
      | ok _ =>
        exact ⟨parent, isMissing ▸ resolved, asked, some.inj created⟩

theorem symlink_reported (made : world.symlink target path base answer = some (.ok inode, later)) :
    ∃ parent files, world.resolvePath path base none { rdonly := true, wronly := true } 0 =
          some (.error .ENOENT, some parent) ∧
      world.createIn parent (basename path)
        (world.ownMetadata 0o120644) answer = (.ok inode, files) ∧
      later = files.setInode inode { files.inodes inode with contents := target } := by
  obtain ⟨⟨targetResult, _⟩, _, made⟩ := bind_eq_some_iff.mp made
  obtain ⟨allowedTarget, _, made⟩ := bind_eq_some_iff.mp made
  cases allowedTarget with
  | error error => cases made
  | ok _ =>
    obtain ⟨⟨existing, parentCustody⟩, resolved, made⟩ := bind_eq_some_iff.mp made
    cases existing with
    | ok custody => cases made
    | error error =>
      cases parentCustody with
      | none => cases made
      | some parent =>
        obtain ⟨allowed, _, made⟩ := bind_eq_some_iff.mp made
        cases allowed with
        | error error => cases made
        | ok _ =>
          by_cases isMissing : error = .ENOENT
          · subst isMissing
            cases created : world.createIn parent (basename path)
                (world.ownMetadata 0o120644) answer with
            | mk result files =>
              simp only [created] at made
              cases result with
              | error error => cases made
              | ok own =>
                cases made
                exact ⟨parent, files, resolved, created, rfl⟩
          · simp [isMissing] at made

theorem openExisting_entries (directory : InodeIdentifier) :
    ((world.openExisting custody options driver).2.inodes
      directory).entries = (world.files.inodes directory).entries := by
  have truncated : ((world.files.setInode custody.inode
      { world.files.inodes custody.inode with contents := [] }).inodes
        directory).entries = (world.files.inodes directory).entries := by
    by_cases isOpened : directory = custody.inode <;>
      simp [Files.setInode, isOpened]
  have branch : ∀ {condition : Prop} [Decidable condition] {first second : ErrorOr Custody × Files},
      (first.2.inodes directory).entries = (world.files.inodes directory).entries →
      (second.2.inodes directory).entries = (world.files.inodes directory).entries →
      ((if condition then first else second).2.inodes directory).entries =
        (world.files.inodes directory).entries := by
    intro condition _ first second isFirst isSecond
    split_ifs with holds
    · rw [isFirst]
    · rw [isSecond]
  refine branch rfl (branch rfl (branch rfl (branch rfl (branch rfl
    (branch rfl (branch (branch rfl rfl) (branch (branch rfl rfl) (branch rfl ?_))))))))
  by_cases truncates : (options.wronly && options.trunc) = true
  · rw [if_pos truncates, truncated]
  · rw [if_neg truncates]

theorem create_created
    (made : world.create path options mode parent owner answer = some (.ok custody, later)) :
    ∃ fullPath metadata, tryJoin parent.trySerializeAbsolutePath (basename path) = some fullPath ∧
      validatePath world.veil fullPath options = some (.ok ()) ∧
      world.files.createChild parent.inode (basename path) metadata answer =
        (.ok custody.inode, later) ∧ metadata.mode = Creation.createdMode mode := by
  obtain ⟨fullPath, joined, checked⟩ := bind_eq_some_iff.mp made
  obtain ⟨allowed, asked, checked⟩ := bind_eq_some_iff.mp checked
  cases allowed with
  | error error => cases checked
  | ok _ =>
    generalize owner.getD (world.credentials.euid, world.credentials.egid) = own at checked
    obtain ⟨uid, gid⟩ := own
    refine ⟨fullPath, ⟨Creation.createdMode mode, uid, gid⟩, joined, asked, ?_, rfl⟩
    change (if _ then _ else if _ then _ else
      if isRegularFile (Creation.createdMode mode) && _ then _ else some (Prod.map
        (Except.map _) id (world.files.createChild parent.inode (basename path)
        ⟨Creation.createdMode mode, uid, gid⟩ answer))) = _ at checked
    split_ifs at checked
    · cases checked
    · cases checked
    · cases checked
    cases created : world.files.createChild parent.inode (basename path)
        ⟨Creation.createdMode mode, uid, gid⟩ answer with
    | mk result files =>
      rw [created] at checked
      cases result with
      | error error => cases checked
      | ok inode =>
        cases checked
        rfl

theorem openPath_creates
    (made : world.openPath path options mode base owner answer driver = some (.ok custody, later))
    (changed : ∃ directory, (later.inodes directory).entries ≠
      (world.files.inodes directory).entries) :
    ∃ parent, world.resolvePath path base none options 0 =
        some (.error .ENOENT, some parent) ∧ options.creat = true ∧
      world.create path options mode parent owner answer = some (.ok custody, later) := by
  by_cases wrong : (options.creat && options.directory) = true
  · rw [World.openPath, if_pos wrong] at made
    cases made
  rw [World.openPath, if_neg wrong] at made
  obtain ⟨⟨result, parentCustody⟩, resolved, made⟩ := bind_eq_some_iff.mp made
  cases result with
  | ok existing =>
    exfalso
    obtain ⟨directory, differ⟩ := changed
    apply differ
    have opened : some (world.openExisting existing options driver) =
        some (.ok custody, later) := by
      split_ifs at made
      · cases made
      · exact made
    rw [← openExisting_entries directory, some.inj opened]
  | error error =>
    cases parentCustody with
    | none => cases made
    | some parent =>
      simp only at made
      split_ifs at made with creates
      · rw [Bool.and_eq_true, beq_iff_eq] at creates
        exact ⟨parent, creates.2 ▸ resolved, creates.1, made⟩
      · cases made

theorem Files.Adds.setContents {old : Files} (adds : old.Adds files directory name inode)
    (notInUse : ¬ old.InUse inode) :
    old.Adds (files.setInode inode { files.inodes inode with contents := contents })
      directory name inode where
  notFound := adds.notFound
  entries := by
    intro other
    rw [← adds.entries]
    by_cases isNew : other = inode <;> simp [Files.setInode, isNew]
  keeps := by
    intro other kept
    have notNew : other ≠ inode := by
      rcases kept with differ | inUse
      · exact differ
      · rintro rfl
        exact notInUse inUse
    rw [← (adds.keeps other kept).1, ← (adds.keeps other kept).2]
    simp [Files.setInode, Files.metadata, notNew]

/-- An entry with the name cut from the path is made in the reported parent. -/
theorem perform_made {creation : Creation} (fresh : creation.Fresh world base)
    (made : world.perform base creation = some (.ok inode, later))
    (changed : ∃ directory, (later.inodes directory).entries ≠
      (world.files.inodes directory).entries) :
    ∃ options error parent, world.resolvePathWithoutVeil creation.resolvedPath base none options
          0 = some (.error error, some parent) ∧
        (error = .ENOENT ∨ options = {} ∧ creation.newMode = none) ∧
        world.files.Adds later parent.inode (basename creation.resolvedPath) inode ∧
        ∀ mode, creation.newMode = some mode →
          (later.metadata inode).mode = mode ∧ world.Unused base inode := by
  cases creation with
  | openPath path options mode owner answer driver =>
    obtain ⟨⟨result, files⟩, opened, isResult⟩ := map_eq_some_iff.mp made
    obtain ⟨isInode, rfl⟩ := Prod.mk.inj isResult
    cases result with
    | error error => cases isInode
    | ok custody =>
      obtain rfl : custody.inode = inode := Except.ok.inj isInode
      obtain ⟨parent, resolved, _, creates⟩ := openPath_creates opened changed
      obtain ⟨_, metadata, _, _, created, isMode⟩ := create_created creates
      have reported := resolvePath_error resolved
      obtain ⟨adds, isMetadata, unused⟩ := createChild_made (fresh reported) created
      refine ⟨options, _, parent, reported, .inl rfl, adds, ?_⟩
      rintro _ ⟨⟩
      exact ⟨by rw [isMetadata, isMode], unused⟩
  | mkdir path mode answer =>
    obtain ⟨parent, resolved, _, created⟩ := mkdir_reported made
    obtain ⟨adds, isMetadata, unused⟩ := createIn_made (fresh resolved) created
    refine ⟨_, _, parent, resolved, .inl rfl, adds, ?_⟩
    rintro _ ⟨⟩
    exact ⟨by rw [isMetadata]; rfl, unused⟩
  | mknod path mode answer =>
    obtain ⟨parent, resolved, created⟩ := mknod_reported made
    have reported := resolvePath_error resolved
    obtain ⟨adds, isMetadata, unused⟩ := createIn_made (fresh reported) created
    refine ⟨_, _, parent, reported, .inl rfl, adds, ?_⟩
    rintro _ ⟨⟩
    exact ⟨by rw [isMetadata]; rfl, unused⟩
  | symlink target path answer =>
    obtain ⟨parent, files, resolved, created, rfl⟩ := symlink_reported made
    have reported := resolvePath_error resolved
    obtain ⟨adds, isMetadata, unused⟩ := createIn_made (fresh reported) created
    refine ⟨_, _, parent, reported, .inl rfl, adds.setContents unused.notInUse, ?_⟩
    rintro _ ⟨⟩
    refine ⟨?_, unused⟩
    have sameMetadata : (files.setInode inode
        { files.inodes inode with contents := target }).metadata inode = files.metadata inode := by
      simp [Files.setInode, Files.metadata]
    rw [sameMetadata, isMetadata]
    rfl
  | link oldPath path answer =>
    obtain ⟨error, parent, resolved, added⟩ := link_reported made
    refine ⟨_, error, parent, resolvePath_error resolved, .inr ⟨rfl, rfl⟩,
      (Files.addChild_adds added).1, ?_⟩
    rintro _ ⟨⟩

end

namespace Creation

/-- The path leads to the inode: `open` follows a link at its end, and what
`mkdir` makes is no link.  The others do not follow a link at its end. -/
def Leads (world : World) (base : Custody) (directory : InodeIdentifier)
    (name : StringView) (inode : InodeIdentifier) : Creation → Prop
  | openPath path _ _ _ _ _ | mkdir path _ _ =>
    ∃ target count, Resolves world (world.startOf path base)
      (components path) target count ∧ target.inode = inode
  | mknod path _ _ | symlink _ path _ | link _ path _ =>
    world.Names base path directory name ∧ world.files.lookup directory name = some inode

/-- One entry is added, and the path leads to the inode through it. -/
def Creates (creation : Creation) (world : World) (base : Custody)
    (later : Files) (inode : InodeIdentifier) : Prop :=
  ∃ directory name, world.files.Adds later directory name inode ∧
    creation.Leads (world.withFiles later) base directory name inode

/-- What is missing is what the path names.  A link at the end of the path may
be followed by `open` if the missing name is the last component as well. -/
def Direct (world : World) (base : Custody) : Creation → Prop
  | openPath path _ _ _ _ _ => ∃ parent, Misses world
      (world.startOf path base) (components path) parent
      (basename path)
  | mkdir path mode _ => world.LastMissing base (World.mkdirPath path) ∧
      (World.mkdirPath path = path ∨ isDirectory (0o040000 ||| mode) = true)
  | mknod path _ _ | symlink _ path _ => world.LastMissing base path
  | link _ path _ => world.LastMissing base path ∧
      ∃ outParent, world.resolvePathWithoutVeil path base none {} 0 =
        some (.error .ENOENT, outParent)

/-- The operations whose files cannot be a part of the path. -/
def MakesFile : Creation → Prop
  | openPath _ _ _ _ _ _ | mknod _ _ _ => True
  | _ => False

end Creation

section

variable {world : World} {base parent : Custody} {path name : StringView}
  {inode directory : InodeIdentifier} {later : Files} {creation : Creation}

theorem Resolves.slashes (isDirectory : world.files.isDirectory custody.inode = true) (more : Nat) :
    Resolves world custody (List.replicate more []) custody 0 := by
  induction more with
  | zero => exact .done custody
  | succ more ih => exact .stay isDirectory (.inr rfl) ih

theorem World.Names.afterwards (noMounts : world.context.mounts = [])
    (adds : world.files.Adds later directory name inode)
    (names : world.Names base path directory name) :
    (world.withFiles later).Names base path directory name := by
  obtain ⟨others, custody, count, split, isName, resolves, isInode, isDirectory⟩ := names
  exact ⟨others, custody, count, split, isName, resolves.afterwards noMounts adds, isInode,
    adds.stays isDirectory⟩

theorem World.Names.before (noMounts : world.context.mounts = [])
    (adds : world.files.Adds later directory name inode) (unused : world.Unused base inode)
    (notDirectory : later.isDirectory inode = false) (notLink : later.isSymlink inode = false)
    (names : (world.withFiles later).Names base path directory name) :
    world.Names base path directory name := by
  obtain ⟨others, custody, count, split, isName, resolves, rfl, isDirectory⟩ := names
  have start : (world.startOf path base).Avoids inode :=
    Custody.Avoids.startOf unused.notAboveBase unused.notRoot
  rcases resolves.before noMounts adds unused.notInUse unused.notRoot
    notDirectory notLink start with ⟨⟨count, resolves⟩, avoids⟩ | ⟨isInode, _⟩
  · refine ⟨others, custody, count, split, isName, resolves, rfl, ?_⟩
    exact (adds.isDirectory_eq (.inl avoids.ne)).symm.trans isDirectory
  · rw [isInode] at isDirectory
    exact absurd (notDirectory.symm.trans isDirectory) Bool.false_ne_true

theorem names_of_lastMissing (noVeil : world.veil.state = .none)
    (noMounts : world.context.mounts = []) (missing : world.LastMissing base path)
    (resolved : world.resolvePathWithoutVeil path base none options 0 =
      some (.error .ENOENT, some parent))
    (adds : world.files.Adds later parent.inode (basename path) inode) :
    (world.withFiles later).Names base path parent.inode (basename path) ∧
      later.lookup parent.inode (basename path) = some inode := by
  obtain ⟨directory, name, names, notFound⟩ := missing
  obtain ⟨own, rfl, isBasename, misses⟩ := names.misses notFound
  obtain rfl := parent_of_misses noVeil misses resolved
  rw [isBasename] at adds ⊢
  exact ⟨names.afterwards noMounts adds, adds.lookup_new⟩

/-! The types of new inodes. -/

theorem isDirectory_regular (mode : Nat) : isDirectory (mode ||| 0o100000) = false := by
  rw [isDirectory, beq_eq_false_iff_ne, Nat.and_or_distrib_right]
  exact (Nat.lt_of_lt_of_le (by decide) Nat.right_le_or).ne'

/-- The bit of regular files turns devices and links into links. -/
theorem isSymlink_regular (isLink : isSymlink (mode ||| 0o100000) = true) :
    isCharacterDevice mode = true ∨ isSymlink mode = true := by
  rw [isSymlink, beq_iff_eq, Nat.and_or_distrib_right] at isLink
  have low : mode &&& 0o070000 = 0o020000 := by
    have masked := congrArg (· &&& 0o070000) isLink
    rw [Nat.and_or_distrib_right, Nat.and_assoc] at masked
    exact (Nat.or_zero _).symm.trans masked
  have whole : mode &&& fileTypeMask = mode &&& 0o070000 ||| mode &&& 2 ^ 15 := by
    rw [← Nat.and_or_distrib_left]
    rfl
  rw [low, Nat.and_two_pow] at whole
  rw [isCharacterDevice, isSymlink, whole]
  cases mode.testBit 15 <;> decide

theorem createdMode_type (proper : isSymlink mode = false) :
    isDirectory (Creation.createdMode mode) = false ∧
      isSymlink (Creation.createdMode mode) = false := by
  unfold Creation.createdMode
  split_ifs with isOther
  · refine ⟨isDirectory_regular mode, ?_⟩
    by_contra isLink
    rcases isSymlink_regular (eq_true_of_ne_false isLink) with isDevice | isLink
    · simp [isDevice] at isOther
    · simp [isLink] at proper
  · refine ⟨?_, proper⟩
    by_contra isDirectory
    rw [Bool.not_eq_false, Kernel.isDirectory, beq_iff_eq] at isDirectory
    simp [isSocket, isFifo, isBlockDevice, isCharacterDevice, isDirectory] at isOther

theorem mknod_type (made : world.mknod path mode base answer = some (.ok inode, later)) :
    isDirectory mode = false ∧ isSymlink mode = false := by
  have someType : (!isRegularFile mode && !isBlockDevice mode &&
      !isCharacterDevice mode && !isFifo mode && !isSocket mode) = false := by
    by_contra wrong
    rw [Bool.not_eq_false] at wrong
    rw [World.mknod, if_pos wrong] at made
    cases made
  rw [isDirectory, isSymlink, beq_eq_false_iff_ne, beq_eq_false_iff_ne]
  constructor <;> intro isType <;>
    simp [isRegularFile, isBlockDevice, isCharacterDevice, isFifo, isSocket, isType] at someType

theorem mkdir_type (mode : Nat) : isSymlink (0o040000 ||| mode) = false := by
  rw [isSymlink, beq_eq_false_iff_ne]
  intro isType
  have bit := congrArg (fun number => number.testBit 14) isType
  simp only [Nat.testBit_and, Nat.testBit_or] at bit
  cases bit

theorem Misses.leads (noVeil : world.veil.state = .none) (noMounts : world.context.mounts = [])
    (misses : Misses world (world.startOf path base) (components path) custody (basename path))
    (resolved : world.resolvePathWithoutVeil path base none options 0 =
      some (.error .ENOENT, some parent))
    (adds : world.files.Adds later parent.inode (basename path) inode)
    (notLink : later.isSymlink inode = false) :
    ∃ target count, Resolves (world.withFiles later)
      (world.startOf path base) (components path) target count ∧ target.inode = inode := by
  obtain rfl := parent_of_misses noVeil misses resolved
  exact misses.afterwards noMounts adds notLink rfl

theorem mkdirPath_eq (missing : world.LastMissing base (World.mkdirPath path)) :
    ∃ count, path = World.mkdirPath path ++ List.replicate count slash := by
  obtain ⟨directory, name, names, _⟩ := missing
  obtain ⟨others, custody, count, split, isName, _⟩ := names
  have notEmpty : (StringView.trimRight path slash).isEmpty = false := by
    by_contra isEmpty
    rw [Bool.not_eq_false] at isEmpty
    have isRoot : World.mkdirPath path = [slash] := by simp [World.mkdirPath, isEmpty]
    rw [isRoot] at split
    have last := congrArg List.getLast? split
    rw [List.getLast?_concat] at last
    exact isName.2.2 (some.inj last).symm
  have isTrimmed : World.mkdirPath path = StringView.trimRight path slash := by
    simp [World.mkdirPath, notEmpty]
  rw [isTrimmed]
  exact trimRight_replicate path

theorem Resolves.trailing {slashes : Nat}
    (resolves : Resolves world (world.startOf trimmed base) (components trimmed) target count)
    (notEmpty : trimmed ≠ []) (isPath : path = trimmed ++ List.replicate slashes slash)
    (isDirectory : world.files.isDirectory target.inode = true) :
    ∃ total, Resolves world (world.startOf path base) (components path) target total := by
  have sameStart : world.startOf path base = world.startOf trimmed base := by
    obtain ⟨first, rest, rfl⟩ := List.exists_cons_of_ne_nil notEmpty
    rw [isPath]
    rfl
  rw [sameStart, isPath, components_append_replicate]
  exact resolves.append (.slashes isDirectory slashes)

/-- An operation that adds an entry adds the one that its path leads to, if
what is missing is what the path names; for `open` and `mknod`, only then. -/
theorem perform_creates (noVeil : world.veil.state = .none)
    (noMounts : world.context.mounts = []) (proper : creation.Proper)
    (fresh : creation.Fresh world base)
    (made : world.perform base creation = some (.ok inode, later))
    (changed : ∃ directory, (later.inodes directory).entries ≠
      (world.files.inodes directory).entries) :
    (creation.Direct world base → creation.Creates world base later inode) ∧
      (creation.MakesFile → creation.Creates world base later inode →
        creation.Direct world base) := by
  obtain ⟨options, error, parent, resolved, isMissing, adds, mode⟩ :=
    perform_made fresh made changed
  have missing : creation.newMode ≠ none → error = .ENOENT := by
    intro isSome
    exact isMissing.resolve_right fun isLink => isSome isLink.2
  cases creation with
  | openPath path options mode owner answer driver =>
    obtain rfl := missing (by simp [Creation.newMode])
    obtain ⟨isMode, unused⟩ := mode _ rfl
    obtain ⟨notDirectory, notLink⟩ := createdMode_type proper
    rw [← isMode] at notDirectory notLink
    constructor
    · rintro ⟨custody, misses⟩
      exact ⟨parent.inode, _, adds, misses.leads noVeil noMounts resolved adds notLink⟩
    rintro _ ⟨_, _, _, target, count, resolves, isInode⟩
    have start : (world.startOf path base).Avoids inode :=
      Custody.Avoids.startOf unused.notAboveBase unused.notRoot
    rcases resolves.before noMounts adds unused.notInUse unused.notRoot
      notDirectory notLink start with ⟨_, avoids⟩ | ⟨_, misses⟩
    · exact absurd isInode avoids.ne
    · exact misses
  | mkdir path mode answer =>
    obtain rfl := missing (by simp [Creation.newMode])
    obtain ⟨isMode, unused⟩ := mode _ rfl
    refine ⟨?_, fun makesFile => makesFile.elim⟩
    rintro ⟨lastMissing, atEnd⟩
    have notLink : later.isSymlink inode = false := by
      rw [Files.isSymlink, isMode]
      exact mkdir_type _
    obtain ⟨directory, name, names, notFound⟩ := lastMissing
    obtain ⟨own, _, rfl, misses⟩ := names.misses notFound
    obtain ⟨target, count, resolves, isInode⟩ := misses.leads noVeil noMounts resolved adds notLink
    have whole : ∃ total, Resolves (world.withFiles later) (world.startOf path base)
        (components path) target total := by
      rcases atEnd with isPath | isDirectory
      · rw [isPath] at resolves
        exact ⟨count, resolves⟩
      · obtain ⟨slashes, isPath⟩ := mkdirPath_eq ⟨directory, _, names, notFound⟩
        have notEmpty : World.mkdirPath path ≠ [] := by
          simp only [World.mkdirPath]
          split_ifs with isEmpty
          · exact List.cons_ne_nil _ _
          · simpa using isEmpty
        apply resolves.trailing notEmpty isPath
        rw [isInode]
        change Kernel.isDirectory (later.metadata inode).mode = true
        rw [isMode, isDirectory]
    obtain ⟨total, whole⟩ := whole
    exact ⟨parent.inode, _, adds, target, total, whole, isInode⟩
  | mknod path mode answer =>
    obtain rfl := missing (by simp [Creation.newMode])
    obtain ⟨isMode, unused⟩ := mode _ rfl
    obtain ⟨notDirectory, notLink⟩ := mknod_type made
    rw [← isMode] at notDirectory notLink
    constructor
    · intro lastMissing
      exact ⟨_, _, adds, names_of_lastMissing noVeil noMounts lastMissing resolved adds⟩
    · rintro _ ⟨directory, name, adds, names, _⟩
      exact ⟨directory, name, names.before noMounts adds unused notDirectory notLink, adds.notFound⟩
  | symlink target path answer =>
    obtain rfl := missing (by simp [Creation.newMode])
    refine ⟨?_, fun makesFile => makesFile.elim⟩
    intro lastMissing
    exact ⟨_, _, adds, names_of_lastMissing noVeil noMounts lastMissing resolved adds⟩
  | link oldPath path answer =>
    refine ⟨?_, fun makesFile => makesFile.elim⟩
    rintro ⟨lastMissing, outParent, sameResolved⟩
    have isEnoent : error = .ENOENT := by
      rcases isMissing with isEnoent | ⟨rfl, _⟩
      · exact isEnoent
      · have same := Option.some.inj (resolved.symm.trans sameResolved)
        exact Except.error.inj (congrArg Prod.fst same)
    subst isEnoent
    exact ⟨_, _, adds, names_of_lastMissing noVeil noMounts lastMissing resolved adds⟩

end

theorem chainFiles_unused (fsid : Nat) : (smallWorld.withFiles chainFiles).Unused
    smallWorld.context.rootCustody ⟨fsid, 6⟩ where
  notInUse := by
    rintro (isDirectory | ⟨directory, name, found⟩)
    · change Kernel.isDirectory 0o100644 = true at isDirectory
      cases isDirectory
    · have entries : chainFiles.lookup directory name = some ⟨fsid, 6⟩ := found
      simp only [Files.lookup, chainFiles] at entries
      split at entries
      all_goals grind
  noEntries := rfl
  notAboveBase := by simp [World.isInside, smallWorld, VFSRootContext.rootCustody]
  notRoot := by simp [World.isInside, smallWorld, World.withFiles, VFSRootContext.rootCustody]

/-- A new file `y` in the directory that `m` leads to. -/
theorem perform_creates_link : ∃ later, (smallWorld.withFiles chainFiles).perform
        smallWorld.context.rootCustody (.mknod [109, slash, 121] 0o100644 (.ok 6)) =
          some (.ok ⟨1, 6⟩, later) ∧ (Creation.mknod [109, slash, 121] 0o100644 (.ok 6)).Creates
        (smallWorld.withFiles chainFiles) smallWorld.context.rootCustody later ⟨1, 6⟩ := by
  refine ⟨_, rfl, ?_⟩
  refine (@perform_creates (smallWorld.withFiles chainFiles) smallWorld.context.rootCustody ⟨1, 6⟩
    _ (.mknod [109, slash, 121] 0o100644 (.ok 6)) rfl rfl trivial ?_ rfl
    ⟨⟨1, 4⟩, by decide⟩).1 ?_
  · rintro _ _ parent _ _ ⟨⟩
    exact chainFiles_unused parent.inode.fsid
  · have inside : Resolves (smallWorld.withFiles chainFiles) smallWorld.context.rootCustody [[100]]
        (.child smallWorld.context.rootCustody [100] ⟨1, 4⟩ noMountFlags) 0 :=
      .enter rfl (by decide) rfl rfl (.done _)
    have links : Resolves (smallWorld.withFiles chainFiles) smallWorld.context.rootCustody [[109]]
        (.child smallWorld.context.rootCustody [100] ⟨1, 4⟩ noMountFlags) 2 :=
      .follow rfl ⟨by decide, _, rfl, rfl, rfl⟩
        (.follow rfl ⟨by decide, _, rfl, rfl, rfl⟩ inside (.done _)) (.done _)
    exact ⟨⟨1, 4⟩, [121], ⟨[[109]], _, 2, rfl, by decide, links, rfl, rfl⟩, rfl⟩

/-- A file system with an empty directory `d` and a link `l` to the missing
`d/n`. -/
def danglingLink : Files where
  inodes := fun inode =>
    if inode.index = 1 then
      ⟨⟨0o040755, 0, 0⟩, [([108], ⟨1, 2⟩), ([100], ⟨1, 3⟩)], []⟩
    else if inode.index = 2 then ⟨⟨0o120644, 0, 0⟩, [], [100, slash, 110]⟩
    else if inode.index = 3 then ⟨⟨0o040755, 0, 0⟩, [], []⟩
    else ⟨⟨0o100644, 0, 0⟩, [], []⟩
  isReadonly := fun _ => false

def danglingWorld : World := ⟨danglingLink, ⟨⟨1, 1⟩, noMountFlags, []⟩, ⟨0, 0, []⟩, .empty⟩

/-- Creating a file through the link `l` makes `d/l`; the path `l` still leads
to the missing `d/n`. -/
theorem not_creates_link : ∃ later, danglingWorld.perform danglingWorld.context.rootCustody
        (.openPath [108] { wronly := true, creat := true } 0o644 none (.ok 4)
          (.ok ())) = some (.ok ⟨1, 4⟩, later) ∧
      later.lookup ⟨1, 3⟩ [108] = some ⟨1, 4⟩ ∧
      (danglingWorld.withFiles later).resolvePathWithoutVeil [108]
        danglingWorld.context.rootCustody none {} 0 = some (.error .ENOENT, some (.child
            danglingWorld.context.rootCustody [100] ⟨1, 3⟩ noMountFlags)) ∧
      ¬ (Creation.openPath [108] { wronly := true, creat := true } 0o644 none
        (.ok 4) (.ok ())).Creates danglingWorld danglingWorld.context.rootCustody later ⟨1, 4⟩ := by
  refine ⟨_, rfl, rfl, rfl, ?_⟩
  rintro ⟨_, _, _, target, count, resolves, _⟩
  obtain ⟨_, _, _, inside, _⟩ := Resolves.of_link ⟨by decide, _, rfl, rfl, rfl⟩ resolves
  have behind := inside.of_enter (by decide) rfl rfl
  obtain ⟨_, found, _⟩ := behind.of_name (by decide)
  cases found

end MixUpOS.Kernel
