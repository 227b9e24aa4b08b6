import MixUpOS.Kernel.FileSystem.EntryCreation

/-!
# Ends of paths

What the last component of a path says about the custody that a walk finds: a
link at the end of a path is followed or not, and slashes at the end of a path
ask for a directory.
-/

namespace MixUpOS.Kernel

open AK List

/-- The names of the custody are entries of directories. -/
def Custody.Attached (files : Files) : Custody → Prop
  | root _ _ => True
  | child parent name inode _ => files.isDirectory parent.inode = true ∧
      files.lookup parent.inode name = some inode ∧ parent.Attached files

section

variable {world : World} {custody : Custody} {count : Nat}

theorem Custody.Attached.up (attached : custody.Attached world.files) :
    (custody.parent.getD custody).Attached world.files := by
  cases custody with
  | root inode flags => exact attached
  | child parent name inode flags => exact attached.2.2

theorem Custody.Attached.enter {child : InodeIdentifier} (noMounts : world.context.mounts = [])
    (attached : custody.Attached world.files)
    (isDirectory : world.files.isDirectory custody.inode = true)
    (found : world.files.lookup custody.inode part = some child) :
    (world.enter custody part child).Attached world.files := by
  simpa [World.enter, VFSRootContext.currentMountState, noMounts, Attached]
    using ⟨isDirectory, found, attached⟩

theorem Custody.Attached.startOf (attached : custody.Attached world.files) :
    (world.startOf path custody).Attached world.files := by
  rw [World.startOf]
  split_ifs
  · exact trivial
  · exact attached

theorem Resolves.attached (noMounts : world.context.mounts = [])
    (resolves : Resolves world custody parts target count)
    (attached : custody.Attached world.files) : target.Attached world.files := by
  induction resolves with
  | done custody => exact attached
  | stay directory isHere onward ih => exact ih attached
  | up directory onward ih => exact ih attached.up
  | enter directory isName found notLink onward ih =>
    exact ih (attached.enter noMounts directory found)
  | follow directory finds inside onward insideIh ih =>
    exact ih (insideIh attached.startOf)

theorem Resolves.of_slashes (slashes : Nat)
    (resolves : Resolves world custody (replicate slashes []) target count) : target = custody := by
  induction slashes with
  | zero =>
    cases resolves
    rfl
  | succ slashes ih => exact ih (resolves.of_here (.inr rfl))

end

/-- What the last component leads to, without following a link. -/
inductive Steps (world : World) (custody : Custody) : StringView → Custody → Prop where
  | here {part : StringView} (isHere : part = [dot] ∨ part = []) : Steps world custody part custody
  | up : Steps world custody [dot, dot] (custody.parent.getD custody)
  | name {part : StringView} {child : InodeIdentifier} (isName : IsName part)
      (found : world.files.lookup custody.inode part = some child) :
      Steps world custody part (world.enter custody part child)

theorem Resolves.steps (resolves : Resolves world custody [part] target 0) :
    Steps world custody part target := by
  cases resolves with
  | stay directory isHere onward =>
    cases onward
    exact .here isHere
  | up directory onward =>
    cases onward
    exact .up
  | enter directory isName found notLink onward =>
    cases onward
    exact .name isName found

/-- The components lead to a custody without following a link at their
end. -/
def Reaches (world : World) (custody : Custody) (parts : List StringView)
    (target : Custody) : Prop :=
  ∃ others last middle count, parts = others ++ [last] ∧
    Resolves world custody others middle count ∧
    world.files.isDirectory middle.inode = true ∧
    Steps world middle last target

namespace Reaches

theorem isDirectory (reaches : Reaches world custody parts target) :
    world.files.isDirectory custody.inode = true := by
  obtain ⟨others, last, middle, count, _, resolves, isDirectory, _⟩ := reaches
  cases others with
  | nil =>
    cases resolves
    exact isDirectory
  | cons part others => exact resolves.directory

theorem last (isDirectory : world.files.isDirectory custody.inode = true)
    (steps : Steps world custody part target) : Reaches world custody [part] target :=
  ⟨[], part, custody, 0, rfl, .done _, isDirectory, steps⟩

theorem cons {count : Nat} (front : Resolves world custody [part] middle count)
    (reaches : Reaches world middle rest target) : Reaches world custody (part :: rest) target := by
  obtain ⟨others, last, directory, _, rfl, resolves, isDirectory, steps⟩ := reaches
  obtain ⟨more, resolves⟩ := front.append resolves
  exact ⟨part :: others, last, directory, more, rfl, resolves, isDirectory, steps⟩

theorem of_dot (reaches : Reaches world custody ([dot] :: rest) target)
    (notEmpty : rest ≠ []) : Reaches world custody rest target := by
  obtain ⟨others, last, directory, count, split, resolves, isDirectory, steps⟩ := reaches
  cases others with
  | nil =>
    rw [nil_append, cons.injEq] at split
    exact absurd split.2 notEmpty
  | cons first others =>
    obtain ⟨rfl, rfl⟩ := split
    exact ⟨others, last, directory, count, rfl, resolves.of_here (.inl rfl), isDirectory, steps⟩

end Reaches

namespace World

variable {world : World} {next : Walker} {custody target : Custody} {last : Option Custody}

/-- A link on the way has contents that lead nowhere. -/
def StopsAtLink (world : World) (custody : Custody) (parts : List StringView) : Prop :=
  ∃ others part rest middle child count, parts = others ++ part :: rest ∧
    Resolves world custody others middle count ∧ IsName part ∧
    world.files.lookup middle.inode part = some child ∧
    world.files.isSymlink (world.enter middle part child).inode = true ∧
    ∀ target count, ¬ Resolves world (world.startOf (world.files.inodes
        (world.enter middle part child).inode).contents middle)
      (components (world.files.inodes (world.enter middle part child).inode).contents) target count

theorem StopsAtLink.cons {count : Nat} (front : Resolves world custody [part] middle count)
    (stops : world.StopsAtLink middle rest) : world.StopsAtLink custody (part :: rest) := by
  obtain ⟨others, link, behind, directory, child, _, rfl, resolves, stop⟩ := stops
  obtain ⟨more, resolves⟩ := front.append resolves
  exact ⟨part :: others, link, behind, directory, child, more, rfl, resolves, stop⟩

theorem StopsAtLink.of_dot (stops : world.StopsAtLink custody ([dot] :: rest)) :
    world.StopsAtLink custody rest := by
  obtain ⟨others, link, behind, directory, child, count, split, resolves, isName, stop⟩ := stops
  cases others with
  | nil =>
    rw [nil_append, cons.injEq] at split
    exact absurd split.1.symm isName.2.1
  | cons first others =>
    obtain ⟨rfl, rfl⟩ := split
    exact ⟨others, link, behind, directory, child, count, rfl,
      resolves.of_here (.inl rfl), isName, stop⟩

theorem StopsAtLink.of_append {count : Nat} (stops : world.StopsAtLink custody (others ++ rest))
    (resolves : Resolves world custody others middle count) : world.StopsAtLink middle rest := by
  obtain ⟨before, link, behind, directory, child, more, split, front, isName,
    found, isLink, nowhere⟩ := stops
  rcases append_eq_append_iff.mp split with
    ⟨between, rfl, rfl⟩ | ⟨between, rfl, isBetween⟩
  · obtain ⟨other, _, second, otherFront, back⟩ := front.of_append
    obtain ⟨rfl, _⟩ := resolves.unique otherFront
    exact ⟨between, link, behind, directory, child, second, rfl, back,
      isName, found, isLink, nowhere⟩
  · obtain ⟨other, _, _, otherFront, back⟩ := resolves.of_append
    obtain ⟨rfl, _⟩ := front.unique otherFront
    cases between with
    | nil =>
      cases back
      exact ⟨[], link, behind, _, child, 0, isBetween.symm, .done _, isName, found, isLink, nowhere⟩
    | cons first between =>
      rw [cons_append, cons.injEq] at isBetween
      rw [← isBetween.1] at back
      obtain ⟨_, _, _, inside, _⟩ := back.of_link ⟨isName, _, found, isLink, rfl⟩
      exact absurd inside (nowhere _ _)

end World

end MixUpOS.Kernel
