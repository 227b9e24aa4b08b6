import MixUpOS.Kernel.FileSystem.PathWalk

/-!
# The meaning of paths

`Resolves` says what custody the components of a path lead to: from left to
right, with each link replaced by its contents.  Every component stands behind a
directory.  `resolve_path_without_veil` finds it if there are not too many
links on the way.
-/

namespace MixUpOS.Kernel

open AK

/-- A component that is looked up. -/
def IsName (part : StringView) : Prop := part ≠ [dot, dot] ∧ part ≠ [dot] ∧ part ≠ []

instance (part : StringView) : Decidable (IsName part) := inferInstanceAs (Decidable (_ ∧ _ ∧ _))

/-- An entry of a directory is a link with the contents. -/
def World.FindsLink (world : World) (custody : Custody) (part contents : StringView) : Prop :=
  IsName part ∧ ∃ child, world.files.lookup custody.inode part = some child ∧
    world.files.isSymlink (world.enter custody part child).inode = true ∧
    contents = (world.files.inodes (world.enter custody part child).inode).contents

/-- The components lead from one custody to another along a number of links. -/
inductive Resolves (world : World) : Custody → List StringView → Custody → Nat → Prop where
  | done (custody : Custody) : Resolves world custody [] custody 0
  | stay {custody target : Custody} {part : StringView} {rest : List StringView} {count : Nat}
      (directory : world.files.isDirectory custody.inode = true)
      (isHere : part = [dot] ∨ part = [])
      (onward : Resolves world custody rest target count) :
      Resolves world custody (part :: rest) target count
  | up {custody target : Custody} {rest : List StringView} {count : Nat}
      (directory : world.files.isDirectory custody.inode = true)
      (onward : Resolves world (custody.parent.getD custody) rest target count) :
      Resolves world custody ([dot, dot] :: rest) target count
  | enter {custody target : Custody} {part : StringView}
      {rest : List StringView} {child : InodeIdentifier} {count : Nat}
      (directory : world.files.isDirectory custody.inode = true)
      (isName : IsName part)
      (found : world.files.lookup custody.inode part = some child)
      (notLink : world.files.isSymlink (world.enter custody part child).inode = false)
      (onward : Resolves world (world.enter custody part child) rest target count) :
      Resolves world custody (part :: rest) target count
  | follow {custody middle target : Custody} {part contents : StringView}
      {rest : List StringView} {inner count : Nat}
      (directory : world.files.isDirectory custody.inode = true)
      (finds : world.FindsLink custody part contents)
      (inside : Resolves world (world.startOf contents custody) (components contents) middle inner)
      (onward : Resolves world middle rest target count) :
      Resolves world custody (part :: rest) target (inner + count + 1)

theorem World.FindsLink.unique {world : World} {custody : Custody}
    {part contents other : StringView} (finds : world.FindsLink custody part contents)
    (otherFinds : world.FindsLink custody part other) : other = contents := by
  obtain ⟨_, child, found, _, rfl⟩ := finds
  obtain ⟨_, otherChild, otherFound, _, rfl⟩ := otherFinds
  cases found.symm.trans otherFound
  rfl

section

variable {world : World} {count : Nat}

theorem not_isDirectory_of_isSymlink (isLink : world.files.isSymlink inode = true) :
    world.files.isDirectory inode = false := by
  rw [Files.isSymlink, isSymlink, beq_iff_eq] at isLink
  rw [Files.isDirectory, isDirectory, isLink]
  rfl

/-! What a component of each kind says about the rest. -/

theorem Resolves.of_here (isHere : part = [dot] ∨ part = [])
    (resolves : Resolves world custody (part :: parts) target count) :
    Resolves world custody parts target count := by
  cases resolves with
  | stay _ _ onward => exact onward
  | up => exact absurd isHere (by simp)
  | enter _ isName => exact absurd isHere (not_or.mpr isName.2)
  | follow _ finds => exact absurd isHere (not_or.mpr finds.1.2)

theorem Resolves.of_up (resolves : Resolves world custody ([dot, dot] :: parts) target count) :
    Resolves world (custody.parent.getD custody) parts target count := by
  cases resolves with
  | stay _ isHere => exact absurd isHere (by simp)
  | up _ onward => exact onward
  | enter _ isName => exact absurd rfl isName.1
  | follow _ finds => exact absurd rfl finds.1.1

theorem Resolves.of_name (isName : IsName part)
    (resolves : Resolves world custody (part :: parts) target count) :
    ∃ child, world.files.lookup custody.inode part = some child ∧
      (world.files.isSymlink (world.enter custody part child).inode = true ∨
        Resolves world (world.enter custody part child) parts target count) := by
  cases resolves with
  | stay _ isHere => exact absurd isHere (not_or.mpr isName.2)
  | up => exact absurd rfl isName.1
  | enter _ _ found _ onward => exact ⟨_, found, .inr onward⟩
  | follow _ finds =>
    obtain ⟨_, child, found, isLink, _⟩ := finds
    exact ⟨child, found, .inl isLink⟩

theorem Resolves.of_enter (isName : IsName part)
    (found : world.files.lookup custody.inode part = some child)
    (notLink : world.files.isSymlink (world.enter custody part child).inode = false)
    (resolves : Resolves world custody (part :: parts) target count) :
    Resolves world (world.enter custody part child) parts target count := by
  obtain ⟨other, sameFound, isLink | onward⟩ := resolves.of_name isName
  all_goals cases found.symm.trans sameFound
  · cases notLink.symm.trans isLink
  · exact onward

theorem Resolves.of_link (finds : world.FindsLink custody part contents)
    (resolves : Resolves world custody (part :: parts) target count) :
    ∃ middle inner outer, Resolves world (world.startOf contents custody)
        (components contents) middle inner ∧ Resolves world middle parts target outer ∧
      count = inner + outer + 1 := by
  cases resolves with
  | stay _ isHere => exact absurd isHere (not_or.mpr finds.1.2)
  | up => exact absurd rfl finds.1.1
  | enter _ _ found notLink =>
    obtain ⟨_, _, sameFound, isLink, _⟩ := finds
    cases found.symm.trans sameFound
    cases notLink.symm.trans isLink
  | follow _ otherFinds inside onward =>
    cases finds.unique otherFinds
    exact ⟨_, _, _, inside, onward, rfl⟩

theorem World.FindsLink.not_hop (finds : world.FindsLink custody part contents) :
    ¬ Resolves world custody (part :: parts) target 0 := by
  intro resolves
  obtain ⟨_, _, _, _, _, never⟩ := resolves.of_link finds
  cases never

theorem Resolves.unique {otherCount : Nat} (first : Resolves world custody parts target count)
    (second : Resolves world custody parts other otherCount) :
    other = target ∧ otherCount = count := by
  induction first generalizing other otherCount with
  | done custody =>
    cases second
    exact ⟨rfl, rfl⟩
  | stay directory isHere onward ih => exact ih (second.of_here isHere)
  | up directory onward ih => exact ih second.of_up
  | enter directory isName found notLink onward ih =>
    exact ih (second.of_enter isName found notLink)
  | follow directory finds inside onward insideIh ih =>
    obtain ⟨middle, inner, outer, otherInside, otherOnward, rfl⟩ := second.of_link finds
    obtain ⟨rfl, rfl⟩ := insideIh otherInside
    obtain ⟨rfl, rfl⟩ := ih otherOnward
    exact ⟨rfl, rfl⟩

theorem Resolves.directory {part : StringView}
    (resolves : Resolves world custody (part :: parts) target count) :
    world.files.isDirectory custody.inode = true := by
  cases resolves with
  | stay directory | up directory | enter directory | follow directory => exact directory

theorem Resolves.append (front : Resolves world custody parts middle count)
    (back : Resolves world middle rest target more) :
    ∃ total, Resolves world custody (parts ++ rest) target total := by
  induction front with
  | done custody => exact ⟨more, back⟩
  | stay directory isHere onward ih =>
    exact (ih back).imp fun _ => .stay directory isHere
  | up directory onward ih => exact (ih back).imp fun _ => .up directory
  | enter directory isName found notLink onward ih =>
    exact (ih back).imp fun _ => .enter directory isName found notLink
  | follow directory finds inside onward insideIh ih =>
    obtain ⟨total, resolves⟩ := ih back
    exact ⟨_, .follow directory finds inside resolves⟩

theorem Resolves.of_cons (resolves : Resolves world custody (part :: parts) target count) :
    ∃ middle first second, Resolves world custody [part] middle first ∧
      Resolves world middle parts target second := by
  cases resolves with
  | stay directory isHere onward =>
    exact ⟨_, _, _, .stay directory isHere (.done _), onward⟩
  | up directory onward => exact ⟨_, _, _, .up directory (.done _), onward⟩
  | enter directory isName found notLink onward =>
    exact ⟨_, _, _, .enter directory isName found notLink (.done _), onward⟩
  | follow directory finds inside onward =>
    exact ⟨_, _, _, .follow directory finds inside (.done _), onward⟩

theorem Resolves.of_append (parts : List StringView)
    (resolves : Resolves world custody (parts ++ rest) target count) :
    ∃ middle first second, Resolves world custody parts middle first ∧
      Resolves world middle rest target second := by
  induction parts generalizing custody count with
  | nil => exact ⟨custody, 0, count, .done _, resolves⟩
  | cons part parts ih =>
    obtain ⟨_, _, _, hop, onward⟩ := resolves.of_cons
    obtain ⟨middle, _, second, front, back⟩ := ih onward
    obtain ⟨total, front⟩ := hop.append front
    exact ⟨middle, total, second, front, back⟩

end

theorem part_cases (part : StringView) :
    part = [dot, dot] ∨ (part = [dot] ∨ part = []) ∨ IsName part := by
  by_cases isUp : part = [dot, dot]
  · exact .inl isUp
  · by_cases isHere : part = [dot] ∨ part = []
    · exact .inr (.inl isHere)
    · rw [not_or] at isHere
      exact .inr (.inr ⟨isUp, isHere.1, isHere.2⟩)

namespace World

/-- A directory that may be searched. -/
def Searchable (world : World) (custody : Custody) : Prop :=
  world.files.isDirectory custody.inode = true ∧
    (world.files.metadata custody.inode).mayExecute world.credentials = true

section

variable (world : World) (options : OpenOptions) (next : Walker)

/-- What a walk can do at a link. -/
inductive LinkStep (parent link : Custody) (rest : List StringView)
    (last : Option Custody) : Fate → Prop where
  | broken {error : ErrNo} (other : world.veil.state = .none → error ≠ .ENOENT) :
      LinkStep parent link rest last (.broken error last)
  | stays (isLast : rest = []) (option : options.nofollowNoerror = true) :
      LinkStep parent link rest last (.found link)
  | inside {inner fate : Fate} (follows : rest = [] → options.nofollowNoerror = false)
      (walked : next (world.startOf (world.files.inodes link.inode).contents parent)
        (partsOf (world.files.inodes link.inode).contents) last = some inner)
      (onward : world.walkOn options next rest inner = some fate)
      (safe : world.safeToFollowSymlink link.inode (world.files.metadata parent.inode) = true)
      (fits : (world.files.inodes link.inode).contents.length ≤ maxPathLen) :
      LinkStep parent link rest last fate

/-- What a walk can do at a component. -/
inductive WalkStep (part : StringView) (rest : List StringView)
    (custody : Custody) (last : Option Custody) : Fate → Prop where
  | broken {error : ErrNo} (other : world.veil.state = .none → error ≠ .ENOENT) :
      WalkStep part rest custody last (.broken error last)
  | hop {fate : Fate} {middle : Custody} (step : Resolves world custody [part] middle 0)
      (onward : world.walkParts options next rest middle last = some fate)
      (searchable : world.Searchable custody) : WalkStep part rest custody last fate
  | missing (directory : world.files.isDirectory custody.inode = true) (isName : IsName part)
      (notFound : world.files.lookup custody.inode part = none) :
      WalkStep part rest custody last (if rest = [] then .missing custody part else .absent)
  | link {fate : Fate} {child : InodeIdentifier}
      (directory : world.files.isDirectory custody.inode = true)
      (isName : IsName part)
      (found : world.files.lookup custody.inode part = some child)
      (isLink : world.files.isSymlink (world.enter custody part child).inode = true)
      (step : world.LinkStep options next custody (world.enter custody part child) rest last fate)
      (searchable : world.Searchable custody) : WalkStep part rest custody last fate

end

variable {world : World} {options : OpenOptions} {next : Walker} {parts : List StringView}
  {custody link target : Custody} {last : Option Custody}

theorem walkLink_cases (walked : world.walkLink options next parent link rest last =
      some fate) : world.LinkStep options next parent link rest last fate := by
  rw [walkLink] at walked
  split_ifs at walked with stops stays unsafeLink
  · cases walked
    exact .broken fun _ => by decide
  · cases walked
    exact .stays stays.1 stays.2
  · cases walked
    exact .broken fun _ => by decide
  obtain ⟨allowed, asked, walked⟩ := Option.bind_eq_some_iff.mp walked
  cases allowed with
  | error error =>
    cases walked
    apply LinkStep.broken
    intro noVeil
    rw [validateCustody, if_pos noVeil] at asked
    cases asked
  | ok _ =>
    obtain ⟨_, fits, walked⟩ := Option.bind_eq_some_iff.mp walked
    obtain ⟨inner, inside, onward⟩ := Option.bind_eq_some_iff.mp walked
    refine .inside ?_ inside onward (by simpa using unsafeLink)
      (by simpa [verify] using fits)
    intro isLast
    by_contra option
    exact stays ⟨isLast, by simpa using option⟩

theorem walkParts_cases
    (walked : world.walkParts options next (part :: rest) custody last = some fate) :
    world.WalkStep options next part rest custody last fate := by
  rw [walkParts] at walked
  by_cases notDirectory : (!world.files.isDirectory custody.inode) = true
  · rw [if_pos notDirectory] at walked
    cases walked
    exact .broken fun _ => by decide
  rw [if_neg notDirectory] at walked
  have directory : world.files.isDirectory custody.inode = true := by simpa using notDirectory
  by_cases notAllowed : (!(world.files.metadata custody.inode).mayExecute world.credentials) = true
  · rw [if_pos notAllowed] at walked
    cases walked
    exact .broken fun _ => by decide
  rw [if_neg notAllowed] at walked
  have searchable : world.Searchable custody := ⟨directory, by simpa using notAllowed⟩
  rcases part_cases part with isUp | isHere | isName
  · subst isUp
    exact .hop (.up directory (.done _)) walked searchable
  · have notUp : part ≠ [dot, dot] := by
      rcases isHere with rfl | rfl <;> simp
    rw [if_neg notUp, if_pos isHere] at walked
    exact .hop (.stay directory isHere (.done _)) walked searchable
  · rw [if_neg isName.1, if_neg (not_or.mpr isName.2)] at walked
    cases found : world.files.lookup custody.inode part with
    | none =>
      rw [found] at walked
      cases walked
      exact .missing directory isName found
    | some child =>
      rw [found] at walked
      by_cases isLink : world.files.isSymlink (world.enter custody part child).inode = true
      · simp only [if_pos isLink] at walked
        exact .link directory isName found isLink (walkLink_cases walked) searchable
      · simp only [if_neg isLink] at walked
        exact .hop (.enter directory isName found (by simpa using isLink) (.done _)) walked
          searchable

theorem walkAtLevel_directory
    (walked : world.walkAtLevel options levels custody (part :: rest) last = some fate) :
    (∃ error, fate = .broken error last) ∨ world.files.isDirectory custody.inode = true := by
  cases levels with
  | zero =>
    cases walked
    exact .inl ⟨_, rfl⟩
  | succ levels =>
    cases walkParts_cases walked with
    | broken => exact .inl ⟨_, rfl⟩
    | hop step => exact .inr step.directory
    | missing directory | link directory => exact .inr directory

/-- A walker finds what the components mean, or a link that it does not
follow. -/
def Sound (world : World) (options : OpenOptions) (walker : Walker) : Prop :=
  ∀ custody parts last target, walker custody parts last = some (.found target) →
    parts ≠ [] ∧ ((∃ count, Resolves world custody parts target count) ∨
      options.nofollowNoerror = true ∧ world.files.isSymlink target.inode = true)

theorem partsOf_eq (notEmpty : partsOf contents ≠ []) : partsOf contents = components contents := by
  apply partsOf_of_ne_nil
  rintro rfl
  exact notEmpty rfl

theorem Sound.resolves {path : StringView} (sound : world.Sound options next)
    (walked : next custody (partsOf path) last = some (.found target))
    (isDirectory : world.files.isDirectory target.inode = true) :
    ∃ count, Resolves world custody (components path) target count := by
  obtain ⟨notEmpty, found | ⟨_, isSymlink⟩⟩ := sound _ _ _ _ walked
  · rw [partsOf_eq notEmpty] at found
    exact found
  · rw [not_isDirectory_of_isSymlink isSymlink] at isDirectory
    cases isDirectory

theorem walkOn_cases (onward : world.walkOn options next rest (.found target) = some fate) :
    (∃ error, fate = .broken error none ∧ world.veil.state ≠ .none) ∨
      rest = [] ∧ fate = .found target ∨
      rest ≠ [] ∧ next target ([dot] :: rest) (some target) = some fate := by
  obtain ⟨allowed, asked, onward⟩ := Option.bind_eq_some_iff.mp onward
  cases allowed with
  | error error =>
    cases onward
    refine .inl ⟨error, rfl, fun noVeil => ?_⟩
    rw [validateCustody, if_pos noVeil] at asked
    cases asked
  | ok _ =>
    split_ifs at onward with isLast
    · cases onward
      exact .inr (.inl ⟨isLast, rfl⟩)
    · exact .inr (.inr ⟨isLast, onward⟩)

theorem walkOn_found {inner : Fate}
    (onward : world.walkOn options next rest inner = some (.found target)) :
    ∃ middle, inner = .found middle ∧ (rest = [] ∧ target = middle ∨
        rest ≠ [] ∧ next middle ([dot] :: rest) (some middle) = some (.found target)) := by
  cases inner with
  | found middle =>
    refine ⟨middle, rfl, ?_⟩
    rcases walkOn_cases onward with ⟨_, never, _⟩ | ⟨isLast, same⟩ | continues
    · cases never
    · cases same
      exact .inl ⟨isLast, rfl⟩
    · exact .inr continues
  | missing directory name | danglingLast directory name =>
    rw [walkOn] at onward
    split_ifs at onward
    all_goals cases onward
  | dangling directory name | absent | broken error last => cases onward

theorem walkParts_sound (sound : world.Sound options next)
    (walked : world.walkParts options next parts custody last = some (.found target)) :
    (∃ count, Resolves world custody parts target count) ∨ options.nofollowNoerror = true ∧
      world.files.isSymlink target.inode = true := by
  induction parts generalizing custody with
  | nil =>
    cases walked
    exact .inl ⟨0, .done _⟩
  | cons part rest ih =>
    generalize isFate : Fate.found target = fate at walked
    cases walkParts_cases walked with
    | broken => cases isFate
    | hop step onward =>
      subst isFate
      exact (ih onward).imp_left fun ⟨_, resolves⟩ => step.append resolves
    | missing directory isName notFound => split_ifs at isFate
    | link directory isName found isLink step =>
      cases step with
      | broken => cases isFate
      | stays isLast option =>
        cases isFate
        exact .inr ⟨option, isLink⟩
      | inside follows inside onward =>
        subst isFate
        have finds : world.FindsLink custody part _ := ⟨isName, _, found, isLink, rfl⟩
        obtain ⟨middle, rfl, ⟨rfl, rfl⟩ | ⟨notLast, continues⟩⟩ := walkOn_found onward
        · obtain ⟨notEmpty, ⟨count, inner⟩ | ⟨option, _⟩⟩ := sound _ _ _ _ inside
          · rw [partsOf_eq notEmpty] at inner
            exact .inl ⟨count + 0 + 1, .follow directory finds inner (.done _)⟩
          · rw [follows rfl] at option
            cases option
        · obtain ⟨_, ⟨count, outer⟩ | stays⟩ := sound _ _ _ _ continues
          · obtain ⟨innerCount, inner⟩ := sound.resolves inside outer.directory
            exact .inl ⟨innerCount + count + 1, .follow directory finds inner
              (outer.of_here (.inl rfl))⟩
          · exact .inr stays

theorem walkAtLevel_sound (levels : Nat) :
    world.Sound options (world.walkAtLevel options levels) := by
  induction levels with
  | zero =>
    intro custody parts last target walked
    cases walked
  | succ levels ih =>
    intro custody parts last target walked
    cases parts with
    | nil => cases walked
    | cons part rest => exact ⟨List.cons_ne_nil _ _, walkParts_sound ih walked⟩

section

variable (searchable : world.Searchable custody)

include searchable

theorem walkParts_eq : world.walkParts options next (part :: rest) custody last =
      if part = [dot, dot] then
        world.walkParts options next rest (custody.parent.getD custody) last
      else if part = [dot] ∨ part = [] then
        world.walkParts options next rest custody last
      else
        match world.files.lookup custody.inode part with
        | none => some (if rest = [] then .missing custody part else .absent)
        | some child =>
          let entered := world.enter custody part child
          if world.files.isSymlink entered.inode then
            world.walkLink options next custody entered rest last
          else world.walkParts options next rest entered last :=
  (if_neg (by simp [searchable.1])).trans (if_neg (by simp [searchable.2]))

theorem walkParts_link (isName : IsName part)
    (found : world.files.lookup custody.inode part = some child)
    (isLink : world.files.isSymlink (world.enter custody part child).inode = true) :
    world.walkParts options next (part :: rest) custody last =
      world.walkLink options next custody (world.enter custody part child) rest last := by
  rw [walkParts_eq searchable, if_neg isName.1, if_neg (not_or.mpr isName.2), found]
  exact if_pos isLink

theorem walkParts_hop (step : Resolves world custody [part] middle 0) :
    world.walkParts options next (part :: rest) custody last =
      world.walkParts options next rest middle last := by
  rw [walkParts_eq searchable]
  cases step with
  | stay _ isHere onward =>
    cases onward
    rw [if_neg (by rcases isHere with rfl | rfl <;> simp), if_pos isHere]
  | up _ onward =>
    cases onward
    rfl
  | enter _ isName found notLink onward =>
    cases onward
    rw [if_neg isName.1, if_neg (not_or.mpr isName.2), found]
    exact if_neg (by simp [notLink])

end

theorem walkLink_eq (noVeil : world.veil.state = .none)
    (safe : world.safeToFollowSymlink link.inode (world.files.metadata parent.inode) = true)
    (fits : (world.files.inodes link.inode).contents.length ≤ maxPathLen)
    (stops : ¬ (rest = [] ∧ options.nofollow = true))
    (stays : ¬ (rest = [] ∧ options.nofollowNoerror = true)) :
    world.walkLink options next parent link rest last =
      (next (world.startOf (world.files.inodes link.inode).contents parent)
        (partsOf (world.files.inodes link.inode).contents) last).bind
          (world.walkOn options next rest) := by
  rw [walkLink, if_neg stops, if_neg stays]
  simp [safe, validateCustody, noVeil, verify_eq_some (decide_eq_true fits)]

theorem walkOn_eq (noVeil : world.veil.state = .none) :
    world.walkOn options next rest (.found target) =
      if rest = [] then some (.found target) else next target ([dot] :: rest) (some target) := by
  simp [walkOn, validateCustody, noVeil]

/-- No veil and no permission stops a walk, links are followed, and their
contents can be resolved. -/
structure Permissive (world : World) (options : OpenOptions) : Prop where
  noVeil : world.veil.state = .none
  follows : options.nofollow = false
  followsAtEnd : options.nofollowNoerror = false
  search : ∀ inode, world.files.isDirectory inode = true →
    (world.files.metadata inode).mayExecute world.credentials = true
  safe : ∀ custody part child, world.files.isDirectory custody.inode = true →
    world.files.lookup custody.inode part = some child →
    world.files.isSymlink (world.enter custody part child).inode = true →
    world.safeToFollowSymlink (world.enter custody part child).inode
      (world.files.metadata custody.inode) = true
  notEmpty : ∀ inode, world.files.isSymlink inode = true → (world.files.inodes inode).contents ≠ []
  fits : ∀ inode, world.files.isSymlink inode = true →
    (world.files.inodes inode).contents.length ≤ maxPathLen

section

variable (permissive : world.Permissive options)

include permissive

theorem Permissive.searchable (directory : world.files.isDirectory custody.inode = true) :
    world.Searchable custody := ⟨directory, permissive.search _ directory⟩

theorem Permissive.walkParts_link (directory : world.files.isDirectory custody.inode = true)
    (isName : IsName part) (found : world.files.lookup custody.inode part = some child)
    (isLink : world.files.isSymlink (world.enter custody part child).inode = true) :
    world.walkParts options next (part :: rest) custody last =
      (next (world.startOf (world.files.inodes (world.enter custody part child).inode).contents
        custody) (components (world.files.inodes (world.enter custody part child).inode).contents)
          last).bind (world.walkOn options next rest) := by
  rw [World.walkParts_link (permissive.searchable directory) isName found isLink,
    walkLink_eq permissive.noVeil (permissive.safe _ _ _ directory found isLink)
      (permissive.fits _ isLink) (by simp [permissive.follows]) (by simp [permissive.followsAtEnd]),
    partsOf_of_ne_nil (permissive.notEmpty _ isLink)]

theorem walkParts_total (total : ∀ custody parts last, ∃ fate, next custody parts last = some fate)
    (parts : List StringView) (custody : Custody) (last : Option Custody) :
    ∃ fate, world.walkParts options next parts custody last = some fate := by
  induction parts generalizing custody with
  | nil => exact ⟨_, rfl⟩
  | cons part rest ih =>
    by_cases directory : world.files.isDirectory custody.inode = true
    · have searchable := permissive.searchable directory
      rcases part_cases part with rfl | isHere | isName
      · rw [walkParts_hop searchable (.up directory (.done _))]
        exact ih _
      · rw [walkParts_hop searchable (.stay directory isHere (.done _))]
        exact ih _
      cases found : world.files.lookup custody.inode part with
      | none =>
        rw [walkParts_eq searchable, if_neg isName.1, if_neg (not_or.mpr isName.2), found]
        exact ⟨_, rfl⟩
      | some child =>
        cases isLink : world.files.isSymlink (world.enter custody part child).inode with
        | true =>
          rw [permissive.walkParts_link directory isName found isLink]
          obtain ⟨inner, walked⟩ := total (world.startOf (world.files.inodes
              (world.enter custody part child).inode).contents custody)
            (components (world.files.inodes (world.enter custody part child).inode).contents) last
          rw [walked, Option.bind_some]
          cases inner with
          | found middle =>
            rw [walkOn_eq permissive.noVeil]
            split_ifs with isLast
            · exact ⟨_, rfl⟩
            · exact total _ _ _
          | missing directory name | danglingLast directory name
          | dangling directory name | absent | broken error last => exact ⟨_, rfl⟩
        | false =>
          rw [walkParts_hop searchable (.enter directory isName found isLink (.done _))]
          exact ih _
    · rw [walkParts]
      simp [directory]

theorem walkAtLevel_total (levels : Nat) (custody : Custody)
    (parts : List StringView) (last : Option Custody) :
    ∃ fate, world.walkAtLevel options levels custody parts last = some fate := by
  induction levels generalizing custody parts last with
  | zero => exact ⟨_, rfl⟩
  | succ levels ih =>
    cases parts with
    | nil => exact ⟨_, rfl⟩
    | cons part rest => exact walkParts_total permissive ih _ _ _

/-- What the components mean is found if the levels suffice. -/
theorem walkParts_complete (complete : ∀ {custody parts target count last},
      Resolves world custody parts target count → count < levels →
      parts ≠ [] → world.walkAtLevel options levels custody parts last = some (.found target))
    (resolves : Resolves world custody parts target count) (enough : count ≤ levels) :
    world.walkParts options (world.walkAtLevel options levels) parts
      custody last = some (.found target) := by
  induction resolves generalizing last with
  | done custody => rfl
  | stay directory isHere onward ih =>
    rw [walkParts_hop (permissive.searchable directory) (.stay directory isHere (.done _))]
    exact ih enough
  | up directory onward ih =>
    rw [walkParts_hop (permissive.searchable directory) (.up directory (.done _))]
    exact ih enough
  | enter directory isName found notLink onward ih =>
    rw [walkParts_hop (permissive.searchable directory)
      (.enter directory isName found notLink (.done _))]
    exact ih enough
  | follow directory finds inside onward insideIh ih =>
    obtain ⟨isName, _, found, isLink, rfl⟩ := finds
    rw [permissive.walkParts_link directory isName found isLink,
      complete inside (by omega) (components_ne_nil _), Option.bind_some,
      walkOn_eq permissive.noVeil]
    split_ifs with isLast
    · subst isLast
      cases onward
      rfl
    · obtain ⟨other, others, rfl⟩ := List.exists_cons_of_ne_nil isLast
      exact complete (.stay onward.directory (.inl rfl) onward) (by omega) (List.cons_ne_nil _ _)

theorem walkAtLevel_complete {custody target : Custody} {parts : List StringView}
    {levels count : Nat} {last : Option Custody}
    (resolves : Resolves world custody parts target count) (enough : count < levels)
    (notEmpty : parts ≠ []) :
    world.walkAtLevel options levels custody parts last = some (.found target) := by
  induction levels generalizing custody target parts count last with
  | zero => cases enough
  | succ levels ih =>
    obtain ⟨part, rest, rfl⟩ := List.exists_cons_of_ne_nil notEmpty
    exact walkParts_complete permissive ih resolves (by omega)

end

end World

theorem resolvePathWithoutVeil_eq {world : World} :
    world.resolvePathWithoutVeil path base none options 0 =
      (world.walkAtLevel options symlinkRecursionLimit
        (world.startOf path base) (partsOf path) none).map Fate.resolution :=
  World.resolveAtLevel_follows symlinkRecursionLimit path base none

theorem resolvePathWithoutVeil_ok {world : World}
    (resolved : world.resolvePathWithoutVeil path base none options 0 =
      some (.ok custody, outParent)) :
    outParent = custody.parent ∧ path ≠ [] ∧ world.walkAtLevel options symlinkRecursionLimit
        (world.startOf path base) (components path) none = some (.found custody) := by
  rw [resolvePathWithoutVeil_eq, Option.map_eq_some_iff] at resolved
  obtain ⟨fate, walked, isResolution⟩ := resolved
  cases fate with
  | found custody =>
    cases isResolution
    obtain ⟨notEmpty, _⟩ := World.walkAtLevel_sound _ _ _ _ _ walked
    rw [World.partsOf_eq notEmpty] at walked
    refine ⟨rfl, ?_, walked⟩
    rintro rfl
    exact notEmpty rfl
  | missing directory name | danglingLast directory name
  | dangling directory name | absent | broken error last => cases isResolution

/-- Path resolution returns.  What it finds is what the path means, with its
parent, and it finds what the path means if that takes fewer links than the
limit. -/
theorem resolvePathWithoutVeil_resolves {world : World} {options : OpenOptions} {path : StringView}
    {base : Custody} (permissive : world.Permissive options) (notEmpty : path ≠ []) :
    ∃ result outParent, world.resolvePathWithoutVeil path base none options 0 =
          some (result, outParent) ∧ (∀ custody, result = .ok custody → outParent = custody.parent ∧
          (∃ count, Resolves world (world.startOf path base) (components path) custody count) ∧
          ∀ other count, Resolves world (world.startOf path base)
            (components path) other count → other = custody) ∧
        ∀ custody count, Resolves world (world.startOf path base)
          (components path) custody count → count < symlinkRecursionLimit →
          result = .ok custody := by
  have parts := partsOf_of_ne_nil notEmpty
  have follows := @World.resolveAtLevel_follows world options symlinkRecursionLimit path base none
  rw [parts] at follows
  obtain ⟨fate, walked⟩ := World.walkAtLevel_total permissive
    symlinkRecursionLimit (world.startOf path base) (components path) none
  rw [walked] at follows
  refine ⟨fate.resolution.1, fate.resolution.2, follows, ?_, ?_⟩
  · intro custody isResult
    cases fate with
    | found target =>
      cases isResult
      obtain ⟨_, ⟨count, resolves⟩ | ⟨option, _⟩⟩ := World.walkAtLevel_sound _ _ _ _ _ walked
      · refine ⟨rfl, ⟨count, resolves⟩, ?_⟩
        intro other otherCount otherResolves
        exact (resolves.unique otherResolves).1
      · rw [permissive.followsAtEnd] at option
        cases option
    | missing directory name | danglingLast directory name
    | dangling directory name | absent | broken error last => cases isResult
  · intro custody count resolves enough
    have found := @World.walkAtLevel_complete world options permissive
      _ _ _ symlinkRecursionLimit _ none resolves enough (components_ne_nil path)
    rw [walked] at found
    cases found
    rfl

/-- A file system with one directory in its root, and a link to it. -/
def smallFiles : Files where
  inodes := fun inode =>
    if inode.index = 1 then
      ⟨⟨0o040755, 0, 0⟩, [([108], ⟨1, 2⟩), ([100], ⟨1, 3⟩)], []⟩
    else if inode.index = 2 then ⟨⟨0o120644, 0, 0⟩, [], [100]⟩
    else ⟨⟨0o040755, 0, 0⟩, [], []⟩
  isReadonly := fun _ => false

def noMountFlags : MountFlags := ⟨false, false, false, false⟩

def smallWorld : World := ⟨smallFiles, ⟨⟨1, 1⟩, noMountFlags, []⟩, ⟨0, 0, []⟩, .empty⟩

/-- A link to a link to a directory with a file. -/
def chainFiles : Files where
  inodes := fun inode =>
    match inode.index with
    | 1 => ⟨⟨0o040755, 0, 0⟩, [([109], ⟨1, 2⟩), ([108], ⟨1, 3⟩), ([100], ⟨1, 4⟩)], []⟩
    | 2 => ⟨⟨0o120644, 0, 0⟩, [], [108]⟩
    | 3 => ⟨⟨0o120644, 0, 0⟩, [], [100]⟩
    | 4 => ⟨⟨0o040755, 0, 0⟩, [([120], ⟨1, 5⟩)], []⟩
    | _ => ⟨⟨0o100644, 0, 0⟩, [], []⟩
  isReadonly := fun _ => false

theorem smallWorld_permissive : smallWorld.Permissive {} where
  noVeil := rfl
  follows := rfl
  followsAtEnd := rfl
  search := fun _ _ => rfl
  safe := by
    intro custody part child _ _ _
    have isOwner : ∀ inode, (smallFiles.metadata inode).uid = 0 := by
      intro inode
      simp only [Files.metadata, smallFiles]
      split_ifs <;> rfl
    simp [World.safeToFollowSymlink, smallWorld, isOwner]
  notEmpty := by
    intro inode isLink
    simp only [smallWorld, Files.isSymlink, Files.metadata, smallFiles] at isLink ⊢
    split_ifs at isLink ⊢
    · cases isLink
    · exact List.cons_ne_nil _ _
    · cases isLink
  fits := by
    intro inode _
    simp only [smallWorld, smallFiles]
    split_ifs <;> decide

/-- The link with a slash behind it leads to the directory. -/
theorem resolvePathWithoutVeil_link : ∃ outParent, smallWorld.resolvePathWithoutVeil [108, slash]
        smallWorld.context.rootCustody none {} 0 =
      some (.ok (.child smallWorld.context.rootCustody [100] ⟨1, 3⟩ noMountFlags), outParent) := by
  obtain ⟨result, outParent, resolved, _, complete⟩ :=
    @resolvePathWithoutVeil_resolves smallWorld {} [108, slash]
      smallWorld.context.rootCustody smallWorld_permissive
      (List.cons_ne_nil _ _)
  have inside : Resolves smallWorld smallWorld.context.rootCustody (components [100])
      (.child smallWorld.context.rootCustody [100] ⟨1, 3⟩ noMountFlags) 0 :=
    .enter rfl (by decide) rfl rfl (.done _)
  have meaning : Resolves smallWorld smallWorld.context.rootCustody (components [108, slash])
      (.child smallWorld.context.rootCustody [100] ⟨1, 3⟩ noMountFlags)
      (0 + 0 + 1) :=
    .follow rfl ⟨by decide, _, rfl, rfl, rfl⟩ inside (.stay rfl (.inr rfl) (.done _))
  have found := complete _ _ meaning (by decide)
  rw [found] at resolved
  exact ⟨outParent, resolved⟩

end MixUpOS.Kernel
