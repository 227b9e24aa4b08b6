import MixUpOS.Kernel.FileSystem.PathEnds

/-!
# Entries that are removed and renamed

`unlink`, `rmdir` and `rename` act on the parent of what a path leads to and on
the name that is cut from its text.  The entry is the one that the path names,
unless a link stands at the end of the path and was followed.
-/

namespace MixUpOS.Kernel

open AK KLexicalPath StringView List

namespace Files

/-- The names in a directory differ. -/
def Tidy (files : Files) : Prop :=
  ∀ directory, ((files.inodes directory).entries.map Prod.fst).Nodup

/-- One entry is removed. -/
def Removes (old new : Files) (directory : InodeIdentifier) (name : StringView) : Prop :=
  ∀ other part, new.lookup other part =
    if other = directory ∧ part = name then none
    else old.lookup other part

section

variable {files : Files} {other : InodeIdentifier} {part : StringView}
  {entries : List (StringView × InodeIdentifier)}

theorem lookup_eq_none_iff : entries.lookup name = none ↔ name ∉ entries.map Prod.fst := by
  rw [List.lookup_eq_none_iff, List.mem_map]
  constructor
  · rintro others ⟨entry, member, rfl⟩
    simpa using others entry member
  · intro notIn entry member
    rw [bne_iff_ne]
    rintro rfl
    exact notIn ⟨entry, member, rfl⟩

theorem eraseEntry_sublist : (eraseEntry name entries).Sublist entries := by
  induction entries with
  | nil => exact Sublist.refl _
  | cons entry rest ih =>
    rw [eraseEntry]
    split_ifs
    · exact sublist_cons_self entry rest
    · exact ih.cons_cons entry

theorem lookup_eraseEntry (distinct : (entries.map Prod.fst).Nodup) :
    (eraseEntry name entries).lookup part =
      if part = name then none else entries.lookup part := by
  induction entries with
  | nil => simp [eraseEntry]
  | cons entry rest ih =>
    rw [map_cons, nodup_cons] at distinct
    rw [eraseEntry]
    by_cases isName : entry.1 = name
    · rw [if_pos isName]
      subst isName
      split_ifs with isPart
      · rw [isPart]
        exact lookup_eq_none_iff.mpr distinct.1
      · rw [lookup_cons, beq_eq_false_iff_ne.mpr isPart]
    · rw [if_neg isName, lookup_cons, lookup_cons, ih distinct.2]
      by_cases isPart : part = entry.1
      · simp [isPart, isName]
      · rw [beq_eq_false_iff_ne.mpr isPart]

theorem removeChild_removes (tidy : files.Tidy) (isName : IsName name)
    (removed : files.removeChild directory name = (.ok (), later)) :
    files.Removes later directory name ∧ later.Tidy := by
  have special : ¬ (name = [dot] ∨ name = [dot, dot]) := not_or.mpr ⟨isName.2.1, isName.1⟩
  rw [removeChild, if_neg special] at removed
  cases found : files.lookup directory name with
  | none =>
    rw [found] at removed
    cases removed
  | some child =>
    rw [found] at removed
    obtain rfl := (Prod.mk.inj removed).2
    constructor
    · intro other part
      change List.lookup part (if other = directory then _ else _ : Inode).entries = _
      by_cases isDirectory : other = directory
      · rw [if_pos isDirectory, lookup_eraseEntry (tidy directory), isDirectory]
        by_cases isPart : part = name
        · rw [if_pos isPart, if_pos ⟨rfl, isPart⟩]
        · rw [if_neg isPart, if_neg (fun both => isPart both.2)]
          rfl
      · rw [if_neg isDirectory, if_neg (fun both => isDirectory both.1), lookup]
    · intro other
      by_cases isDirectory : other = directory
      · simp only [setEntries, setInode, if_pos isDirectory]
        exact (tidy directory).sublist (eraseEntry_sublist.map Prod.fst)
      · simp only [setEntries, setInode, if_neg isDirectory]
        exact tidy other

theorem Adds.tidy (adds : files.Adds later directory name child)
    (tidy : files.Tidy) : later.Tidy := by
  intro other
  rw [adds.entries]
  split_ifs with isDirectory
  · have notFound := adds.notFound
    rw [← isDirectory, lookup, lookup_eq_none_iff] at notFound
    rw [map_append, nodup_append]
    refine ⟨tidy other, by simp, ?_⟩
    intro first isFirst second isSecond same
    subst same
    simp only [map_cons, map_nil, mem_singleton] at isSecond
    exact notFound (isSecond ▸ isFirst)
  · exact tidy other

end

end Files

theorem World.Names.isName {world : World} (names : world.Names base path directory name) :
    IsName name := by
  obtain ⟨_, _, _, _, isName, _⟩ := names
  exact isName

theorem World.Names.ne_nil {world : World} (names : world.Names base path directory name) :
    path ≠ [] := by
  rintro rfl
  obtain ⟨others, _, _, split, isName, _⟩ := names
  have last := congrArg getLast? split
  rw [getLast?_concat] at last
  exact isName.2.2 (Option.some.inj last).symm

/-- Without slashes at its end the path names a link. -/
def World.EndsAtLink (world : World) (base : Custody) (path : StringView) : Prop :=
  ∃ directory name child, world.Names base (trimRight path slash) directory name ∧
    world.files.lookup directory name = some child ∧
    world.files.isSymlink child = true

section

variable {world : World} {count : Nat}

theorem startOf_trimRight (notEmpty : trimRight path slash ≠ []) :
    world.startOf (trimRight path slash) base = world.startOf path base := by
  obtain ⟨slashes, isPath⟩ := trimRight_replicate path
  obtain ⟨first, rest, isFirst⟩ := exists_cons_of_ne_nil notEmpty
  rw [isFirst] at isPath ⊢
  rw [isPath]
  rfl

theorem enter_eq (noMounts : world.context.mounts = [])
    (part : StringView) (child : InodeIdentifier) :
    world.enter custody part child = .child custody part child custody.mountFlags := by
  simp [World.enter, VFSRootContext.currentMountState, noMounts]

theorem Resolves.last_part (notEmpty : path ≠ [])
    (resolves : Resolves world (world.startOf path base) (components path) target count)
    (isParent : target.parent = some parent) :
    ∃ others last middle first second, components (trimRight path slash) = others ++ [last] ∧
        last ≠ [] ∧ basename path = last ∧
        Resolves world (world.startOf (trimRight path slash) base) others middle first ∧
        Resolves world middle [last] target second := by
  obtain ⟨slashes, isPath⟩ := trimRight_replicate path
  have parts : components path = components (trimRight path slash) ++ replicate slashes [] := by
    rw [← components_append_replicate, ← isPath]
  by_cases allSlashes : trimRight path slash = []
  · -- The path is the root.
    rw [allSlashes] at isPath
    have atRoot : world.startOf path base = world.context.rootCustody := by
      cases slashes with
      | zero => exact absurd isPath notEmpty
      | succ slashes =>
        rw [isPath]
        rfl
    have isSlashes : components path = replicate (slashes + 1) [] := by
      rw [parts, allSlashes]
      rfl
    rw [atRoot, isSlashes] at resolves
    rw [resolves.of_slashes] at isParent
    cases isParent
  · obtain ⟨others, last, split, notLast⟩ := trimRight_components allSlashes
    rw [parts] at resolves
    obtain ⟨_, _, _, front, back⟩ := resolves.of_append
    obtain rfl := back.of_slashes
    rw [split] at front
    obtain ⟨middle, first, second, front, back⟩ := front.of_append
    refine ⟨others, last, middle, first, second, split, notLast, ?_, ?_, back⟩
    · rw [← basename_trimRight allSlashes]
      exact basename_eq split notLast
    · rw [startOf_trimRight allSlashes]
      exact front

theorem resolvePath_ok
    (resolved : world.resolvePath path base none options 0 = some (.ok custody, outParent)) :
    outParent = custody.parent ∧ path ≠ [] ∧ world.walkAtLevel options symlinkRecursionLimit
        (world.startOf path base) (components path) none = some (.found custody) :=
  resolvePathWithoutVeil_ok (resolvePath_found resolved).1

end

inductive Removal where
  | unlink (path : StringView) (base : Custody)
  | rmdir (path : StringView) (base : Custody)
  | rename (oldBase : Custody) (oldPath : StringView) (newBase : Custody)
      (newPath : StringView) (answer : ErrorOr Unit)

def World.remove (world : World) : Removal → Option (ErrorOr Unit × Files)
  | .unlink path base => world.unlink path base
  | .rmdir path base => world.rmdir path base
  | .rename oldBase oldPath newBase newPath answer =>
    world.rename oldBase oldPath newBase newPath answer

namespace Removal

/-- The bases are in the tree. -/
def Attached (files : Files) : Removal → Prop
  | unlink _ base => base.Attached files
  | rmdir _ base => base.Attached files
  | rename oldBase _ newBase _ _ =>
    oldBase.Attached files ∧ newBase.Attached files

/-- No link stands at the end of a path where it would be followed, and what is
before the last component of a new path leads to a directory. -/
def Plain (world : World) : Removal → Prop
  | unlink _ _ => True
  | rmdir path base => ¬ world.EndsAtLink base path
  | rename oldBase oldPath newBase newPath _ =>
    ¬ (oldPath.getLast? = some slash ∧ world.EndsAtLink oldBase oldPath) ∧
    ¬ world.EndsAtLink newBase newPath ∧
    ∃ directory name, world.Names newBase (trimRight newPath slash) directory name

end Removal

section

variable {world : World} {base : Custody} {path : StringView} {later : Files}

theorem unlink_cases (done : world.unlink path base = some (.ok (), later)) :
    ∃ custody parent, world.resolvePath path base none
        { wronly := true, nofollowNoerror := true, unlinkInternal := true }
          0 = some (.ok custody, some parent) ∧
      world.files.isDirectory custody.inode = false ∧
      world.files.removeChild parent.inode (basename path) = (.ok (), later) := by
  obtain ⟨⟨result, parentCustody⟩, resolved, done⟩ := Option.bind_eq_some_iff.mp done
  cases result with
  | error error => cases done
  | ok custody =>
    simp only at done
    split_ifs at done with isDirectory
    · cases done
    cases parentCustody with
    | none => cases done
    | some parent =>
      simp only at done
      split_ifs at done
      · cases done
      · cases done
      · cases done
      · exact ⟨custody, parent, resolved, by simpa using isDirectory, Option.some.inj done⟩

theorem rmdir_cases (done : world.rmdir path base = some (.ok (), later)) :
    ∃ custody parent, world.resolvePath path base none { creat := true } 0 =
        some (.ok custody, some parent) ∧
      basename path ≠ [dot] ∧
      world.files.isDirectory custody.inode = true ∧
      (world.files.inodes custody.inode).entries = [] ∧
      world.files.removeChild parent.inode (basename path) = (.ok (), later) := by
  obtain ⟨⟨result, parentCustody⟩, resolved, done⟩ := Option.bind_eq_some_iff.mp done
  cases result with
  | error error => cases done
  | ok custody =>
    cases parentCustody with
    | none =>
      simp only at done
      split_ifs at done
      all_goals cases done
    | some parent =>
      simp only at done
      split_ifs at done with isDot notDirectory _ _ full
      all_goals try cases done
      have isEmpty : (world.files.inodes custody.inode).entries = [] := by
        rw [Files.childCount] at full
        exact length_eq_zero_iff.mp (by omega)
      exact ⟨custody, parent, resolved, isDot,
        by simpa using notDirectory, isEmpty, Option.some.inj done⟩

theorem rename_cases
    (done : world.rename oldBase oldPath newBase newPath answer = some (.ok (), later)) :
    ∃ oldCustody oldParent new newParent,
      world.resolvePath oldPath oldBase none { nofollowNoerror := true } 0 =
          some (.ok oldCustody, some oldParent) ∧
        world.resolvePath newPath newBase none {} 0 = some (new, some newParent) ∧
        (∀ error, new = .error error → error = .ENOENT) ∧
        oldParent.inode.fsid = newParent.inode.fsid ∧
        world.renameIn oldCustody.inode oldParent (basename oldPath) new.toOption newParent
          (basename newPath) answer = some (.ok (), later) := by
  obtain ⟨⟨old, oldParentCustody⟩, oldResolved, done⟩ := Option.bind_eq_some_iff.mp done
  cases old with
  | error error => cases done
  | ok oldCustody =>
    obtain ⟨⟨new, newParentCustody⟩, newResolved, done⟩ := Option.bind_eq_some_iff.mp done
    have missing : ∀ error, new = .error error → error = .ENOENT := by
      rintro error rfl
      by_contra notMissing
      simp [notMissing] at done
    cases oldParentCustody with
    | none =>
      cases new with
      | ok custody => cases done
      | error error =>
        simp only at done
        split_ifs at done <;> cases done
    | some oldParent =>
      cases newParentCustody with
      | none =>
        cases new with
        | ok custody => cases done
        | error error => simp at done
      | some newParent =>
        refine ⟨oldCustody, oldParent, new, newParent, oldResolved, newResolved, missing, ?_⟩
        cases new with
        | ok custody =>
          change (if _ then _ else if _ then _ else _) = _ at done
          split_ifs at done with _ otherFile
          all_goals try cases done
          exact ⟨not_not.mp otherFile, done⟩
        | error error =>
          obtain rfl := missing error rfl
          change (if _ then _ else if _ then _ else _) = _ at done
          split_ifs at done with _ otherFile
          all_goals try cases done
          exact ⟨not_not.mp otherFile, done⟩

end

end MixUpOS.Kernel
