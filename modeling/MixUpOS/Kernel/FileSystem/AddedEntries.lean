import MixUpOS.Kernel.FileSystem.MissingComponents

/-!
# Paths and new entries

What paths lead to after a directory got one entry more, and which entry a path
names.
-/

namespace MixUpOS.Kernel

open AK

namespace Files

/-- The inode is a directory or has an entry. -/
def InUse (files : Files) (inode : InodeIdentifier) : Prop :=
  files.isDirectory inode = true ∨ ∃ directory name, files.lookup directory name = some inode

/-- A directory gets one entry more.  At most the inode of the new entry
changes, and not if it is in use. -/
structure Adds (old new : Files) (directory : InodeIdentifier)
    (name : StringView) (inode : InodeIdentifier) : Prop where
  notFound : old.lookup directory name = none
  entries : ∀ other, (new.inodes other).entries =
    if other = directory then (old.inodes other).entries ++ [(name, inode)]
    else (old.inodes other).entries
  keeps : ∀ other, other ≠ inode ∨ old.InUse other → new.metadata other = old.metadata other ∧
      (new.inodes other).contents = (old.inodes other).contents

section

variable {files : Files}

theorem addChild_adds (added : files.addChild directory child name answer = (.ok (), later)) :
    files.Adds later directory name child ∧ ∀ other, later.metadata other = files.metadata other ∧
        (later.inodes other).contents = (files.inodes other).contents := by
  unfold addChild at added
  split_ifs at added with tooLong alreadyThere
  · cases added
  · cases added
  cases answer with
  | error error => cases added
  | ok _ =>
    obtain rfl := (Prod.mk.inj added).2
    have keeps : ∀ other, (files.setEntries directory
        ((files.inodes directory).entries ++ [(name, child)])).metadata
          other = files.metadata other ∧
        ((files.setEntries directory ((files.inodes directory).entries ++
          [(name, child)])).inodes other).contents = (files.inodes other).contents := by
      intro other
      by_cases isDirectory : other = directory <;>
        simp [setEntries, setInode, metadata, isDirectory]
    refine ⟨⟨by simpa using alreadyThere, ?_, fun other _ => keeps other⟩, keeps⟩
    intro other
    by_cases isDirectory : other = directory <;>
      simp [setEntries, setInode, isDirectory]

theorem createChild_adds {metadata : InodeMetadata} {answer : ErrorOr Nat}
    (created : files.createChild directory name metadata answer = (.ok inode, later))
    (unused : ∀ index, answer = .ok index → ¬ files.InUse ⟨directory.fsid, index⟩ ∧
        (files.inodes ⟨directory.fsid, index⟩).entries = []) :
    files.Adds later directory name inode ∧ later.metadata inode = metadata ∧ ¬ files.InUse inode ∧
      ∃ index, answer = .ok index ∧ inode = ⟨directory.fsid, index⟩ := by
  cases answer with
  | error error => cases created
  | ok index =>
    obtain ⟨notInUse, noEntries⟩ := unused index rfl
    have sameEntries : ∀ other, ((files.setInode ⟨directory.fsid, index⟩
        ⟨metadata, [], []⟩).inodes other).entries = (files.inodes other).entries := by
      intro other
      by_cases isNew : other = ⟨directory.fsid, index⟩
      · simp [setInode, isNew, noEntries]
      · simp [setInode, isNew]
    simp only [createChild] at created
    cases added : (files.setInode ⟨directory.fsid, index⟩
        ⟨metadata, [], []⟩).addChild directory ⟨directory.fsid, index⟩ name
        (.ok ()) with
    | mk result afterwards =>
      rw [added] at created
      cases result with
      | error error => cases created
      | ok _ =>
        obtain ⟨isInode, rfl⟩ := Prod.mk.inj created
        obtain rfl := Except.ok.inj isInode
        obtain ⟨⟨notFound, entries, _⟩, keeps⟩ := addChild_adds added
        refine ⟨⟨?_, ?_, ?_⟩, ?_, notInUse, index, rfl, rfl⟩
        · rw [lookup, sameEntries] at notFound
          exact notFound
        · intro other
          rw [entries, sameEntries]
        · intro other kept
          have notNew : other ≠ ⟨directory.fsid, index⟩ := by
            rcases kept with differ | inUse
            · exact differ
            · rintro rfl
              exact notInUse inUse
          obtain ⟨sameMetadata, sameContents⟩ := keeps other
          rw [sameMetadata, sameContents]
          simp [setInode, notNew, Files.metadata]
        · rw [(keeps _).1]
          simp [setInode, Files.metadata]

/-! What is known of the directories afterwards. -/

variable {old : Files}

section

variable (adds : old.Adds new directory name inode)

include adds

theorem Adds.lookup_new : new.lookup directory name = some inode := by
  have notFound := adds.notFound
  rw [lookup] at notFound
  rw [lookup, adds.entries, if_pos rfl, List.lookup_append, notFound]
  simp

theorem Adds.lookup_old (differ : ¬ (other = directory ∧ part = name)) :
    new.lookup other part = old.lookup other part := by
  rw [lookup, adds.entries]
  split_ifs with isDirectory
  · have otherName : (part == name) = false :=
      beq_eq_false_iff_ne.mpr fun isName => differ ⟨isDirectory, isName⟩
    rw [List.lookup_append, List.lookup_cons, otherName]
    simp [lookup]
  · rfl

theorem Adds.lookup_some (found : old.lookup other part = some child) :
    new.lookup other part = some child := by
  rw [adds.lookup_old, found]
  rintro ⟨rfl, rfl⟩
  rw [adds.notFound] at found
  cases found

theorem Adds.lookup_cases (found : new.lookup other part = some child) :
    old.lookup other part = some child ∨ other = directory ∧ part = name ∧ child = inode := by
  by_cases isNew : other = directory ∧ part = name
  · obtain ⟨rfl, rfl⟩ := isNew
    rw [adds.lookup_new] at found
    exact .inr ⟨rfl, rfl, (Option.some.inj found).symm⟩
  · rw [adds.lookup_old isNew] at found
    exact .inl found

theorem Adds.isDirectory_eq (kept : other ≠ inode ∨ old.InUse other) :
    new.isDirectory other = old.isDirectory other := by
  rw [isDirectory, (adds.keeps other kept).1]
  rfl

theorem Adds.stays (isDirectory : old.isDirectory other = true) : new.isDirectory other = true := by
  rw [adds.isDirectory_eq (.inr (.inl isDirectory)), isDirectory]

theorem Adds.isSymlink_eq (kept : other ≠ inode ∨ old.InUse other) :
    new.isSymlink other = old.isSymlink other := by
  rw [isSymlink, (adds.keeps other kept).1]
  rfl

end

end

end Files

/-- The same world with other files. -/
def World.withFiles (world : World) (files : Files) : World := { world with files := files }

section

variable {world : World} {directory inode : InodeIdentifier} {name : StringView}
  {custody target parent : Custody} {parts : List StringView} {count : Nat}

section

variable (noMounts : world.context.mounts = [])

include noMounts

theorem enter_inode (child : InodeIdentifier) : (world.enter custody part child).inode = child := by
  simp [World.enter, VFSRootContext.currentMountState, noMounts, Custody.inode]

theorem inUse_enter (found : world.files.lookup custody.inode part = some child) :
    world.files.InUse (world.enter custody part child).inode := by
  rw [enter_inode noMounts]
  exact .inr ⟨_, _, found⟩

variable (adds : world.files.Adds later directory name inode)

include adds

theorem Files.Adds.enter_isSymlink (found : world.files.lookup custody.inode part = some child) :
    later.isSymlink (world.enter custody part child).inode =
      world.files.isSymlink (world.enter custody part child).inode :=
  adds.isSymlink_eq (.inr (inUse_enter noMounts found))

theorem Files.Adds.findsLink (finds : world.FindsLink custody part contents) :
    (world.withFiles later).FindsLink custody part contents := by
  obtain ⟨isName, child, found, isLink, isContents⟩ := finds
  exact ⟨isName, child, adds.lookup_some found, (adds.enter_isSymlink noMounts found).trans isLink,
    isContents.trans (adds.keeps _ (.inr (inUse_enter noMounts found))).2.symm⟩

theorem Resolves.afterwards (resolves : Resolves world custody parts target count) :
    Resolves (world.withFiles later) custody parts target count := by
  induction resolves with
  | done custody => exact .done custody
  | stay directory isHere onward ih => exact .stay (adds.stays directory) isHere ih
  | up directory onward ih => exact .up (adds.stays directory) ih
  | enter directory isName found notLink onward ih =>
    refine .enter (adds.stays directory) isName (adds.lookup_some found) ?_ ih
    exact (adds.enter_isSymlink noMounts found).trans notLink
  | follow directory finds inside onward insideIh ih =>
    exact .follow (adds.stays directory) (adds.findsLink noMounts finds) insideIh ih

theorem Misses.afterwards (notLink : later.isSymlink inode = false)
    (misses : Misses world custody parts parent name) (isDirectory : parent.inode = directory) :
    ∃ target count, Resolves (world.withFiles later) custody parts target
      count ∧ target.inode = inode := by
  induction misses with
  | @last custody name directory isName notFound =>
    subst isDirectory
    have isInode : ((world.withFiles later).enter custody name inode).inode =
        inode := enter_inode noMounts inode
    refine ⟨_, 0, .enter (adds.stays directory) isName adds.lookup_new ?_ (.done _), isInode⟩
    rw [isInode]
    exact notLink
  | hop front onward ih =>
    obtain ⟨target, count, resolves, isInode⟩ := ih adds isDirectory
    obtain ⟨total, resolves⟩ := (front.afterwards noMounts adds).append resolves
    exact ⟨target, total, resolves, isInode⟩
  | followLast directory finds inside ih =>
    obtain ⟨target, count, resolves, isInode⟩ := ih adds isDirectory
    exact ⟨target, count + 0 + 1, .follow (adds.stays directory) (adds.findsLink noMounts finds)
      resolves (.done _), isInode⟩

end

/-- An inode that nothing refers to. -/
structure World.Unused (world : World) (base : Custody) (inode : InodeIdentifier) : Prop where
  notInUse : ¬ world.files.InUse inode
  noEntries : (world.files.inodes inode).entries = []
  notAboveBase : World.isInside inode base = false
  notRoot : World.isInside inode world.context.rootCustody = false

/-- No inode on the way to the custody is the given one. -/
def Custody.Avoids (custody : Custody) (inode : InodeIdentifier) : Prop :=
  World.isInside inode custody = false

theorem Custody.Avoids.ne (avoids : custody.Avoids inode) : custody.inode ≠ inode := by
  intro isInode
  subst isInode
  cases custody <;> simp [Avoids, World.isInside, Custody.inode] at avoids

theorem Custody.Avoids.up (avoids : custody.Avoids inode) :
    (custody.parent.getD custody).Avoids inode := by
  cases custody with
  | root own flags => exact avoids
  | child parent name own flags =>
    simp only [Avoids, World.isInside, Bool.or_eq_false_iff] at avoids
    exact avoids.2

theorem Custody.Avoids.enter {child : InodeIdentifier}
    (noMounts : world.context.mounts = []) (avoids : custody.Avoids inode)
    (differ : child ≠ inode) : (world.enter custody part child).Avoids inode := by
  simpa [World.enter, VFSRootContext.currentMountState, noMounts, Avoids,
    World.isInside, differ] using avoids

theorem Custody.Avoids.startOf (avoids : custody.Avoids inode)
    (root : world.context.rootCustody.Avoids inode) :
    (world.startOf contents custody).Avoids inode := by
  rw [World.startOf]
  split_ifs
  · exact root
  · exact avoids

theorem Resolves.eq_of_not_isDirectory
    (notDirectory : world.files.isDirectory custody.inode = false)
    (resolves : Resolves world custody parts target count) : parts = [] ∧ target = custody := by
  cases parts with
  | nil =>
    cases resolves
    exact ⟨rfl, rfl⟩
  | cons part rest =>
    have isDirectory := resolves.directory
    rw [notDirectory] at isDirectory
    cases isDirectory

/-- A path led to the target, or it misses the new file. -/
def Led (world : World) (inode : InodeIdentifier) (name : StringView) (custody : Custody)
    (parts : List StringView) (target : Custody) : Prop :=
  (∃ count, Resolves world custody parts target count) ∧ target.Avoids inode ∨
    target.inode = inode ∧ ∃ parent, Misses world custody parts parent name

theorem Led.hop (led : Led world inode name middle parts target)
    (front : Resolves world custody [part] middle count) :
    Led world inode name custody (part :: parts) target := by
  rcases led with ⟨⟨_, resolves⟩, goesOn⟩ | ⟨isInode, parent, misses⟩
  · exact .inl ⟨front.append resolves, goesOn⟩
  · exact .inr ⟨isInode, parent, .hop front misses⟩

/-- A path led where it does now, unless it goes to a new file. -/
theorem Resolves.before (noMounts : world.context.mounts = [])
    (adds : world.files.Adds later directory name inode) (notInUse : ¬ world.files.InUse inode)
    (root : world.context.rootCustody.Avoids inode) (notDirectory : later.isDirectory inode = false)
    (notLink : later.isSymlink inode = false)
    (resolves : Resolves (world.withFiles later) custody parts target count)
    (avoids : custody.Avoids inode) : Led world inode name custody parts target := by
  have directories : ∀ {custody : Custody}, custody.Avoids inode →
      later.isDirectory custody.inode = true →
      world.files.isDirectory custody.inode = true := by
    intro custody avoids isDirectory
    rw [← adds.isDirectory_eq (.inl avoids.ne), isDirectory]
  have differ : ∀ {custody : Custody} {part : StringView} {child : InodeIdentifier},
      world.files.lookup custody.inode part = some child →
      child ≠ inode := by
    rintro custody part child found rfl
    exact notInUse (.inr ⟨_, _, found⟩)
  have isNew : ∀ {custody : Custody} {part : StringView},
      ((world.withFiles later).enter custody part inode).inode = inode :=
    enter_inode noMounts inode
  induction resolves with
  | done custody => exact .inl ⟨⟨0, .done _⟩, avoids⟩
  | stay directory isHere onward ih =>
    exact (ih avoids).hop (.stay (directories avoids directory) isHere (.done _))
  | up directory onward ih =>
    exact (ih avoids.up).hop (.up (directories avoids directory) (.done _))
  | @enter custody target part rest child count directory isName found
      stillNoLink onward ih =>
    have wasDirectory := directories avoids directory
    rcases adds.lookup_cases found with wasFound | ⟨isDirectory, rfl, rfl⟩
    · have kept := inUse_enter noMounts wasFound
      have wasNoLink : world.files.isSymlink (world.enter custody part child).inode = false :=
        (adds.isSymlink_eq (.inr kept)).symm.trans stillNoLink
      exact (ih (avoids.enter noMounts (differ wasFound))).hop
        (.enter wasDirectory isName wasFound wasNoLink (.done _))
    · -- The new file ends the path.
      obtain ⟨rfl, rfl⟩ := onward.eq_of_not_isDirectory (by
        rw [isNew]
        exact notDirectory)
      refine .inr ⟨isNew, custody, .last wasDirectory isName ?_⟩
      rw [isDirectory]
      exact adds.notFound
  | @follow custody middle target part contents rest inner count directory finds inside onward
      insideIh ih =>
    have wasDirectory := directories avoids directory
    obtain ⟨isName, child, found, stillLink, isContents⟩ := finds
    rcases adds.lookup_cases found with wasFound | ⟨isDirectory, rfl, rfl⟩
    · have kept := inUse_enter noMounts wasFound
      have finds : world.FindsLink custody part contents :=
        ⟨isName, child, wasFound, (adds.isSymlink_eq (.inr kept)).symm.trans stillLink,
          isContents.trans (adds.keeps _ (.inr kept)).2⟩
      rcases insideIh (avoids.startOf root) with
        ⟨⟨_, inside⟩, middleAvoids⟩ | ⟨isInode, parent, missesInside⟩
      · exact (ih middleAvoids).hop (.follow wasDirectory finds inside (.done _))
      · obtain ⟨rfl, rfl⟩ := onward.eq_of_not_isDirectory (by
          rw [isInode]
          exact notDirectory)
        exact .inr ⟨isInode, parent, .followLast wasDirectory finds missesInside⟩
    · rw [isNew] at stillLink
      exact absurd (notLink.symm.trans stillLink) Bool.false_ne_true

end

/-- The path names an entry of a directory: what is before its last component
leads to the directory. -/
def World.Names (world : World) (base : Custody) (path : StringView)
    (directory : InodeIdentifier) (name : StringView) : Prop :=
  ∃ others custody count, components path = others ++ [name] ∧ IsName name ∧
    Resolves world (world.startOf path base) others custody count ∧
    custody.inode = directory ∧ world.files.isDirectory directory = true

/-- The path names an entry that its directory does not have. -/
def World.LastMissing (world : World) (base : Custody) (path : StringView) : Prop :=
  ∃ directory name, world.Names base path directory name ∧ world.files.lookup directory name = none

section

variable {count : Nat}

theorem World.Names.misses (names : world.Names base path directory name)
    (notFound : world.files.lookup directory name = none) :
    ∃ parent, parent.inode = directory ∧ KLexicalPath.basename path = name ∧
      Misses world (world.startOf path base) (components path) parent name := by
  obtain ⟨others, custody, count, split, isName, resolves, rfl, isDirectory⟩ := names
  refine ⟨custody, rfl, KLexicalPath.basename_eq split isName.2.2, ?_⟩
  rw [split]
  exact .append resolves (.last isDirectory isName notFound)

theorem parent_of_misses (noVeil : world.veil.state = .none)
    (misses : Misses world (world.startOf path base) (components path) custody name)
    (resolved : world.resolvePathWithoutVeil path base none options 0 =
      some (.error .ENOENT, some parent)) : parent = custody := by
  rcases reported_because resolved with ⟨_, _, other⟩ | ⟨_, meaningless, _⟩ | ⟨_, _, _, notMissing⟩
  · exact (misses.unique other).1
  · exact absurd misses (meaningless.notMisses _ _)
  · exact absurd rfl (notMissing noVeil)

end

end MixUpOS.Kernel
