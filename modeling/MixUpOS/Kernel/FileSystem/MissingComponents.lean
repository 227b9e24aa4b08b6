import MixUpOS.Kernel.FileSystem.PathResolution
import MixUpOS.Kernel.FileSystem.VirtualFileSystemOperations

/-!
# Missing last components

`resolve_path_without_veil` reports the parent of a path whose last component
is missing.  What it leaves in `*out_parent` is misleading after a link that is
not the last component: if the contents of the link end at a missing component,
or if the walk breaks off behind it.
-/

namespace MixUpOS.Kernel

open AK

/-- The components lead to a directory that has no entry for the last one, or
for the last one of the contents of a link at their end. -/
inductive Misses (world : World) : Custody → List StringView → Custody → StringView → Prop where
  | last {custody : Custody} {name : StringView}
      (directory : world.files.isDirectory custody.inode = true)
      (isName : IsName name)
      (notFound : world.files.lookup custody.inode name = none) :
      Misses world custody [name] custody name
  | hop {custody middle parent : Custody} {part name : StringView} {rest : List StringView}
      {count : Nat} (front : Resolves world custody [part] middle count)
      (onward : Misses world middle rest parent name) :
      Misses world custody (part :: rest) parent name
  | followLast {custody parent : Custody} {part name contents : StringView}
      (directory : world.files.isDirectory custody.inode = true)
      (finds : world.FindsLink custody part contents)
      (inside : Misses world (world.startOf contents custody) (components contents) parent name) :
      Misses world custody [part] parent name

namespace Misses

variable {custody parent : Custody} {parts : List StringView} {count : Nat}

section

variable (misses : Misses world custody parts parent name)

include misses

theorem isDirectory : world.files.isDirectory parent.inode = true := by
  induction misses with
  | last directory => exact directory
  | hop _ _ ih | followLast _ _ _ ih => exact ih

theorem lookup : world.files.lookup parent.inode name = none := by
  induction misses with
  | last _ _ notFound => exact notFound
  | hop _ _ ih | followLast _ _ _ ih => exact ih

theorem ne_nil : parts ≠ [] := by
  cases misses <;> exact List.cons_ne_nil _ _

end

theorem append (front : Resolves world custody parts target count)
    (back : Misses world target rest parent name) :
    Misses world custody (parts ++ rest) parent name := by
  induction parts generalizing custody count with
  | nil =>
    cases front
    exact back
  | cons part parts ih =>
    obtain ⟨_, _, _, first, onward⟩ := front.of_cons
    exact .hop first (ih onward)

section

variable (misses : Misses world custody (part :: parts) parent name)

include misses

theorem cons_cases : (∃ middle count, Resolves world custody [part] middle count ∧
        Misses world middle parts parent name) ∨ parts = [] ∧ IsName part ∧
        (world.files.lookup custody.inode part = none ∧ parent = custody ∧ name = part ∨
          ∃ contents, world.FindsLink custody part contents ∧
            Misses world (world.startOf contents custody) (components contents) parent name) := by
  cases misses with
  | last _ isName notFound => exact .inr ⟨rfl, isName, .inl ⟨notFound, rfl, rfl⟩⟩
  | hop front onward => exact .inl ⟨_, _, front, onward⟩
  | followLast _ finds inside => exact .inr ⟨rfl, finds.1, .inr ⟨_, finds, inside⟩⟩

theorem first_directory : world.files.isDirectory custody.inode = true := by
  cases misses with
  | last directory | followLast directory => exact directory
  | hop front => exact front.directory

theorem of_missing (isName : IsName part)
    (notFound : world.files.lookup custody.inode part = none) :
    parts = [] ∧ parent = custody ∧ name = part := by
  rcases misses.cons_cases with ⟨_, _, front, _⟩ | ⟨isLast, _, ⟨_, missed⟩ | ⟨_, finds, _⟩⟩
  · obtain ⟨child, found, _⟩ := front.of_name isName
    rw [notFound] at found
    cases found
  · exact ⟨isLast, missed⟩
  · obtain ⟨_, child, found, _⟩ := finds
    rw [notFound] at found
    cases found

theorem of_link (finds : world.FindsLink custody part contents) :
    (∃ middle count, Resolves world (world.startOf contents custody)
        (components contents) middle count ∧ Misses world middle parts parent name) ∨
    parts = [] ∧ Misses world (world.startOf contents custody)
      (components contents) parent name := by
  rcases misses.cons_cases with ⟨_, _, front, onward⟩ | ⟨isLast, _, ⟨notFound, _⟩ | missed⟩
  · obtain ⟨_, _, _, inside, done, _⟩ := front.of_link finds
    cases done
    exact .inl ⟨_, _, inside, onward⟩
  · obtain ⟨_, child, found, _⟩ := finds
    rw [found] at notFound
    cases notFound
  · obtain ⟨other, otherFinds, inside⟩ := missed
    cases finds.unique otherFinds
    exact .inr ⟨isLast, inside⟩

end

section

variable (misses : Misses world custody parts parent name)

include misses

theorem not_resolves : ¬ Resolves world custody parts target count := by
  intro resolves
  induction misses generalizing target count with
  | last directory isName notFound =>
    obtain ⟨child, found, _⟩ := resolves.of_name isName
    rw [notFound] at found
    cases found
  | hop front onward ih =>
    obtain ⟨_, _, _, otherFront, otherOnward⟩ := resolves.of_cons
    obtain ⟨rfl, _⟩ := front.unique otherFront
    exact ih otherOnward
  | followLast directory finds inside ih =>
    obtain ⟨middle, inner, outer, otherInside, _⟩ := resolves.of_link finds
    exact ih otherInside

omit misses in
theorem of_append (misses : Misses world custody (parts ++ rest) parent name)
    (resolves : Resolves world custody parts target count) :
    Misses world target rest parent name := by
  induction parts generalizing custody count with
  | nil =>
    cases resolves
    exact misses
  | cons part parts ih =>
    rcases misses.cons_cases with ⟨_, _, front, back⟩ | ⟨isLast, _⟩
    · obtain ⟨_, _, _, otherFront, onward⟩ := resolves.of_cons
      obtain ⟨rfl, _⟩ := front.unique otherFront
      exact ih back onward
    · obtain ⟨rfl, rfl⟩ := List.append_eq_nil_iff.mp isLast
      exact absurd resolves misses.not_resolves

omit misses in
theorem of_here (misses : Misses world custody (part :: parts) parent name)
    (isHere : part = [dot] ∨ part = []) : Misses world custody parts parent name :=
  misses.of_append (.stay misses.first_directory isHere (.done _))

theorem unique (other : Misses world custody parts otherParent otherName) :
    otherParent = parent ∧ otherName = name := by
  induction misses generalizing otherParent otherName with
  | last directory isName notFound =>
    exact (other.of_missing isName notFound).2
  | hop front onward ih =>
    exact ih (other.of_append front)
  | followLast directory finds inside ih =>
    rcases other.of_link finds with ⟨middle, count, otherInside, _⟩ | ⟨_, otherInside⟩
    · exact absurd otherInside inside.not_resolves
    · exact ih otherInside

theorem exists_directory : ∃ target count, Resolves world custody parts.dropLast target count ∧
      world.files.isDirectory target.inode = true := by
  induction misses with
  | last directory | followLast directory => exact ⟨_, 0, .done _, directory⟩
  | hop front onward ih =>
    obtain ⟨target, _, resolves, isDirectory⟩ := ih
    obtain ⟨total, resolves⟩ := front.append resolves
    rw [List.dropLast_cons_of_ne_nil onward.ne_nil]
    exact ⟨target, total, resolves, isDirectory⟩

end

end Misses

/-- The components lead neither to a custody nor to a missing last
component. -/
structure Meaningless (world : World) (custody : Custody) (parts : List StringView) : Prop where
  notResolves : ∀ target count, ¬ Resolves world custody parts target count
  notMisses : ∀ parent name, ¬ Misses world custody parts parent name

namespace Meaningless

variable {world : World} {custody : Custody} {part : StringView} {rest : List StringView}

theorem hop (front : Resolves world custody [part] middle count)
    (meaningless : Meaningless world middle rest) : Meaningless world custody (part :: rest) where
  notResolves := by
    intro target total resolves
    obtain ⟨_, _, second, otherFront, onward⟩ := resolves.of_cons
    obtain ⟨rfl, _⟩ := front.unique otherFront
    exact meaningless.notResolves _ _ onward
  notMisses := by
    intro parent name misses
    exact meaningless.notMisses _ _ (misses.of_append front)

theorem link (finds : world.FindsLink custody part contents)
    (nowhere : ∀ middle count, ¬ Resolves world
      (world.startOf contents custody) (components contents) middle count)
    (inside : rest = [] → ∀ parent name, ¬ Misses world
      (world.startOf contents custody) (components contents) parent name) :
    Meaningless world custody (part :: rest) where
  notResolves := by
    intro target count resolves
    obtain ⟨_, _, _, otherInside, _⟩ := resolves.of_link finds
    exact nowhere _ _ otherInside
  notMisses := by
    intro parent name misses
    rcases misses.of_link finds with
      ⟨_, _, otherInside, _⟩ | ⟨isLast, otherInside⟩
    · exact nowhere _ _ otherInside
    · exact inside isLast _ _ otherInside

theorem of_dot (meaningless : Meaningless world custody ([dot] :: rest))
    (notEmpty : rest ≠ []) : Meaningless world custody rest := by
  obtain ⟨part, others, rfl⟩ := List.exists_cons_of_ne_nil notEmpty
  constructor
  · intro target count resolves
    exact meaningless.notResolves _ _ (.stay resolves.directory (.inl rfl) resolves)
  · intro parent name misses
    exact meaningless.notMisses _ _
      (.hop (.stay misses.first_directory (.inl rfl) (.done _)) misses)

end Meaningless

namespace World

variable {world : World} {options : OpenOptions} {next : Walker}

/-- What the end of a walk says about the components. -/
def Explains (world : World) (custody : Custody) (parts : List StringView) : Fate → Prop
  | .found _ => True
  | .missing parent name => Misses world custody parts parent name
  | .danglingLast parent name => Misses world custody parts parent name
  | .dangling _ _ => Meaningless world custody parts
  | .absent => True
  | .broken error _ => world.veil.state = .none → error ≠ .ENOENT

theorem Explains.hop (front : Resolves world custody [part] middle count)
    (explains : world.Explains middle rest fate) : world.Explains custody (part :: rest) fate := by
  cases fate with
  | found | absent => exact trivial
  | missing | danglingLast => exact Misses.hop front explains
  | dangling => exact Meaningless.hop front explains
  | broken => exact explains

theorem Explains.of_dot (explains : world.Explains custody ([dot] :: rest) fate)
    (notEmpty : rest ≠ []) : world.Explains custody rest fate := by
  cases fate with
  | found | absent => exact trivial
  | missing | danglingLast => exact Misses.of_here explains (.inl rfl)
  | dangling => exact Meaningless.of_dot explains notEmpty
  | broken => exact explains

/-- A walker whose ends are explained. -/
structure Explained (world : World) (options : OpenOptions) (walker : Walker) : Prop where
  explains : ∀ {custody parts last fate},
    walker custody parts last = some fate → world.Explains custody parts fate
  sound : world.Sound options walker
  directory : ∀ {custody part rest last fate}, walker custody (part :: rest) last = some fate →
    (∃ error, fate = .broken error last) ∨ world.files.isDirectory custody.inode = true
  notEmpty : ∀ {custody last fate}, walker custody [] last = some fate →
    ∃ error, fate = .broken error last

section

variable (explained : world.Explained options next)

include explained

theorem Explained.parts (walked : next custody (partsOf path) last = some fate)
    (goesOn : ∀ error, fate ≠ .broken error last) : partsOf path = components path := by
  apply partsOf_eq
  intro isEmpty
  rw [isEmpty] at walked
  obtain ⟨error, isBroken⟩ := explained.notEmpty walked
  exact goesOn error isBroken

theorem walkOn_explains {custody : Custody} {part contents : StringView}
    {rest : List StringView} {inner fate : Fate} {last : Option Custody}
    (directory : world.files.isDirectory custody.inode = true)
    (finds : world.FindsLink custody part contents)
    (walked : next (world.startOf contents custody) (partsOf contents) last = some inner)
    (onward : world.walkOn options next rest inner = some fate) :
    world.Explains custody (part :: rest) fate := by
  have innerExplains := explained.explains walked
  have parts := explained.parts walked
  have link := @Meaningless.link world custody part rest contents finds
  cases inner with
  | found middle =>
    rcases walkOn_cases onward with ⟨error, rfl, veiled⟩ | ⟨_, rfl⟩ | ⟨notLast, onward⟩
    · exact fun noVeil => absurd noVeil veiled
    · exact trivial
    have outer := explained.explains onward
    rcases explained.directory onward with ⟨error, rfl⟩ | isDirectory
    · exact outer
    · obtain ⟨_, inside⟩ := explained.sound.resolves walked isDirectory
      exact (outer.of_dot notLast).hop (.follow directory finds inside (.done _))
  | missing parent name | danglingLast parent name =>
    rw [parts (by simp)] at innerExplains
    cases onward
    split_ifs with isLast
    · rw [isLast]
      exact .followLast directory finds innerExplains
    · exact link (fun _ _ => Misses.not_resolves innerExplains)
        fun never => absurd never isLast
  | dangling parent name =>
    rw [parts (by simp)] at innerExplains
    cases onward
    exact link innerExplains.notResolves fun _ => innerExplains.notMisses
  | absent =>
    cases onward
    exact trivial
  | broken error last =>
    cases onward
    exact innerExplains

theorem walkParts_explains (walked : world.walkParts options next parts custody last = some fate) :
    world.Explains custody parts fate := by
  induction parts generalizing custody with
  | nil =>
    cases walked
    exact trivial
  | cons part rest ih =>
    cases walkParts_cases walked with
    | broken other => exact other
    | hop step onward => exact (ih onward).hop step
    | missing directory isName notFound =>
      split_ifs with isLast
      · rw [isLast]
        exact .last directory isName notFound
      · exact trivial
    | link directory isName found isLink step =>
      cases step with
      | broken other => exact other
      | stays => exact trivial
      | inside follows inside onward =>
        exact walkOn_explains explained directory ⟨isName, _, found, isLink, rfl⟩ inside onward

end

theorem walkAtLevel_explained (levels : Nat) :
    world.Explained options (world.walkAtLevel options levels) := by
  induction levels with
  | zero =>
    refine ⟨?_, walkAtLevel_sound 0, walkAtLevel_directory, ?_⟩
    · intro custody parts last fate walked
      cases walked
      exact fun _ => by decide
    · intro custody last fate walked
      cases walked
      exact ⟨_, rfl⟩
  | succ levels ih =>
    refine ⟨?_, walkAtLevel_sound _, walkAtLevel_directory, ?_⟩
    · intro custody parts last fate walked
      cases parts with
      | nil =>
        cases walked
        exact fun _ => by decide
      | cons part rest => exact walkParts_explains ih walked
    · intro custody last fate walked
      cases walked
      exact ⟨_, rfl⟩

end World

/-- The walk ends in a way that leaves a misleading parent: an inner link ends
at a missing component, or the walk breaks off behind a link whose target has a
parent. -/
def Fate.Misleads : Fate → Prop
  | .dangling _ _ => True
  | .broken _ last => (last.bind Custody.parent).isSome = true
  | _ => False

def World.NotMisled (world : World) (path : StringView) (base : Custody) : Prop :=
  ∀ options fate, world.walkAtLevel options symlinkRecursionLimit
      (world.startOf path base) (partsOf path) none = some fate →
    ¬ fate.Misleads

/-- All components of the path but the last lead to a directory. -/
def World.HasDirectory (world : World) (path : StringView) (base : Custody) : Prop :=
  ∃ directory count, Resolves world (world.startOf path base)
      (components path).dropLast directory count ∧
    world.files.isDirectory directory.inode = true

/-- A parent is reported for a missing last component only, and creating
operations rely on it. -/
structure World.ReportsMissing (world : World) (path : StringView) (base : Custody) : Prop where
  reports : ∀ {options error parent}, world.resolvePathWithoutVeil path base none options 0 =
      some (.error error, some parent) →
    error = .ENOENT ∧ world.files.isDirectory parent.inode = true ∧
      ∃ name, world.files.lookup parent.inode name = none ∧
        Misses world (world.startOf path base) (components path) parent name
  mkdir : ∀ {given mode answer resolution}, World.mkdirPath given = path →
    world.resolvePathWithoutVeil path base none {} 0 = some resolution →
    (∀ custody, validateCustody world.veil custody { creat := true } ≠ none) →
    world.mkdir given mode base answer ≠ none
  mknod : ∀ {mode answer inode files}, world.mknod path mode base answer = some (.ok inode, files) →
    world.HasDirectory path base
  link : ∀ {oldPath answer inode files},
    world.link oldPath path base answer = some (.ok inode, files) →
    world.HasDirectory path base

section

variable {world : World} {options : OpenOptions} {path : StringView}
  {base parent : Custody} {error : ErrNo} {last : Option Custody}

theorem reported_because (resolved : world.resolvePathWithoutVeil path base none options 0 =
      some (.error error, some parent)) :
    (error = .ENOENT ∧ ∃ name, Misses world (world.startOf path base)
        (components path) parent name) ∨ (partsOf path = components path ∧
        Meaningless world (world.startOf path base) (components path) ∧
        ∃ name, world.walkAtLevel options symlinkRecursionLimit (world.startOf path base)
          (partsOf path) none = some (.dangling parent name)) ∨
      ∃ last, world.walkAtLevel options symlinkRecursionLimit (world.startOf path base)
          (partsOf path) none = some (.broken error last) ∧
        last.bind Custody.parent = some parent ∧ (world.veil.state = .none → error ≠ .ENOENT) := by
  rw [resolvePathWithoutVeil_eq, Option.map_eq_some_iff] at resolved
  obtain ⟨fate, walked, isResolution⟩ := resolved
  have explained := @World.walkAtLevel_explained world options symlinkRecursionLimit
  have explains := explained.explains walked
  have parts := explained.parts walked
  cases fate with
  | found custody | absent => cases isResolution
  | missing directory name | danglingLast directory name =>
    cases isResolution
    rw [parts (by simp)] at explains
    exact .inl ⟨rfl, name, explains⟩
  | dangling directory name =>
    cases isResolution
    rw [parts (by simp)] at explains
    exact .inr (.inl ⟨parts (by simp), explains, name, walked⟩)
  | broken error last =>
    obtain ⟨isError, isParent⟩ := Prod.mk.inj isResolution
    cases isError
    exact .inr (.inr ⟨last, walked, isParent, explains⟩)

theorem reports_of_notMisled (notMisled : world.NotMisled path base)
    (resolved : world.resolvePathWithoutVeil path base none options 0 =
      some (.error error, some parent)) :
    error = .ENOENT ∧ ∃ name, Misses world (world.startOf path base)
      (components path) parent name := by
  rcases reported_because resolved with missed | ⟨_, _, _, walked⟩ | ⟨last, walked, isParent, _⟩
  · exact missed
  · exact absurd trivial (notMisled _ _ walked)
  · exact absurd (Option.isSome_iff_exists.mpr ⟨parent, isParent⟩) (notMisled _ _ walked)

/-- A veil hides what is found, and changes nothing else. -/
theorem resolvePath_cases
    (resolved : world.resolvePath path base none options 0 = some (result, outParent)) :
    world.resolvePathWithoutVeil path base none options 0 = some (result, outParent) ∧
        (∀ custody, result = .ok custody →
          validateCustody world.veil custody options = some (.ok ())) ∨
      (∃ error, result = .error error) ∧ outParent = none := by
  obtain ⟨⟨found, foundParent⟩, inner, outer⟩ := Option.bind_eq_some_iff.mp resolved
  cases found with
  | error error =>
    cases outer
    exact .inl ⟨inner, fun _ never => by cases never⟩
  | ok custody =>
    obtain ⟨allowed, asked, outer⟩ := Option.bind_eq_some_iff.mp outer
    cases allowed with
    | error error =>
      cases outer
      exact .inr ⟨⟨error, rfl⟩, rfl⟩
    | ok _ =>
      cases outer
      refine .inl ⟨inner, ?_⟩
      rintro _ ⟨⟩
      exact asked

theorem resolvePath_error
    (resolved : world.resolvePath path base none options 0 = some (.error error, some parent)) :
    world.resolvePathWithoutVeil path base none options 0 = some (.error error, some parent) := by
  rcases resolvePath_cases resolved with ⟨inner, _⟩ | ⟨_, never⟩
  · exact inner
  · cases never

theorem resolvePath_found
    (resolved : world.resolvePath path base none options 0 = some (.ok custody, outParent)) :
    world.resolvePathWithoutVeil path base none options 0 = some (.ok custody, outParent) ∧
      validateCustody world.veil custody options = some (.ok ()) := by
  rcases resolvePath_cases resolved with ⟨inner, validated⟩ | ⟨⟨_, never⟩, _⟩
  · exact ⟨inner, validated custody rfl⟩
  · cases never

theorem hasDirectory_of_notMisled (notMisled : world.NotMisled path base)
    (resolved : world.resolvePath path base none options 0 =
      some (.error error, some parent)) : world.HasDirectory path base := by
  obtain ⟨_, name, misses⟩ := reports_of_notMisled notMisled (resolvePath_error resolved)
  exact misses.exists_directory

theorem mknod_reported (made : world.mknod path mode base answer = some (.ok inode, files)) :
    ∃ parent, world.resolvePath path base none {} 0 = some (.error .ENOENT, some parent) ∧
      world.createIn parent (KLexicalPath.basename path)
        (world.ownMetadata mode) answer = (.ok inode, files) := by
  rw [World.mknod] at made
  split_ifs at made with wrongMode
  · cases made
  obtain ⟨⟨existing, parentCustody⟩, resolved, made⟩ := Option.bind_eq_some_iff.mp made
  cases existing with
  | ok custody => cases made
  | error error =>
    cases parentCustody with
    | none => cases made
    | some parent =>
      by_cases isMissing : error = .ENOENT
      · subst isMissing
        exact ⟨parent, resolved, Option.some.inj made⟩
      · simp [isMissing] at made

theorem link_reported (made : world.link oldPath path base answer = some (.ok inode, files)) :
    ∃ error parent, world.resolvePath path base none {} 0 = some (.error error, some parent) ∧
      world.files.addChild parent.inode inode (KLexicalPath.basename path)
        answer = (.ok (), files) := by
  obtain ⟨⟨old, _⟩, _, made⟩ := Option.bind_eq_some_iff.mp made
  cases old with
  | error error => cases made
  | ok oldCustody =>
    obtain ⟨⟨new, parentCustody⟩, resolved, made⟩ := Option.bind_eq_some_iff.mp made
    cases new with
    | ok custody => cases made
    | error error =>
      cases parentCustody with
      | none => cases made
      | some parent =>
        simp only at made
        split_ifs at made
        all_goals try cases made
        refine ⟨error, parent, resolved, ?_⟩
        cases added : world.files.addChild parent.inode
            oldCustody.inode (KLexicalPath.basename path) answer with
        | mk result later =>
          rw [added] at made
          cases result with
          | error error => cases made
          | ok _ =>
            cases made
            exact added

/-- A parent is reported for a missing last component unless the walk misleads;
if there is no veil, only then. -/
theorem reportsMissing_iff (world : World) (path : StringView) (base : Custody) :
    (world.NotMisled path base → world.ReportsMissing path base) ∧
      (world.veil.state = .none → world.ReportsMissing path base → world.NotMisled path base) := by
  constructor
  · intro notMisled
    constructor
    · intro options error parent resolved
      obtain ⟨isMissing, name, misses⟩ := reports_of_notMisled notMisled resolved
      exact ⟨isMissing, misses.isDirectory, name, misses.lookup, misses⟩
    · rintro given mode answer ⟨result, outParent⟩ rfl resolved unveils
      rw [World.mkdir]
      simp only [resolved, some_bind]
      cases result with
      | ok custody => simp
      | error error =>
        cases outParent with
        | none => simp
        | some parent =>
          obtain ⟨rfl, _⟩ := reports_of_notMisled notMisled resolved
          obtain ⟨allowed, isAllowed⟩ := Option.ne_none_iff_exists'.mp (unveils parent)
          simp only [isAllowed, decide_true, verify_true]
          cases allowed <;> simp
    · intro mode answer inode files made
      obtain ⟨parent, resolved, _⟩ := mknod_reported made
      exact hasDirectory_of_notMisled notMisled resolved
    · intro oldPath answer inode files made
      obtain ⟨error, parent, resolved, _⟩ := link_reported made
      exact hasDirectory_of_notMisled notMisled resolved
  · intro noVeil reportsMissing options fate walked misleads
    have explained := @World.walkAtLevel_explained world options symlinkRecursionLimit
    have explains := explained.explains walked
    have resolved : world.resolvePathWithoutVeil path base none options 0 =
        some fate.resolution := by
      rw [resolvePathWithoutVeil_eq, walked]
      rfl
    cases fate with
    | found custody | missing directory name | danglingLast directory name
    | absent => exact misleads
    | dangling directory name =>
      obtain ⟨_, _, other, _, misses⟩ := reportsMissing.reports resolved
      have notEmpty : partsOf path ≠ [] := by
        intro isEmpty
        rw [isEmpty] at walked
        obtain ⟨error, never⟩ := explained.notEmpty walked
        cases never
      rw [World.partsOf_eq notEmpty] at explains
      exact Meaningless.notMisses explains _ _ misses
    | broken error last =>
      obtain ⟨parent, isParent⟩ := Option.isSome_iff_exists.mp misleads
      rw [Fate.resolution, isParent] at resolved
      obtain ⟨isMissing, _⟩ := reportsMissing.reports resolved
      exact explains noVeil isMissing

end

/-- The directory that the link of the small tree leads to is empty. -/
theorem reportsMissing_behind_link :
    smallWorld.NotMisled [108, slash, 120] smallWorld.context.rootCustody ∧
      smallWorld.ReportsMissing [108, slash, 120] smallWorld.context.rootCustody := by
  have notMisled : smallWorld.NotMisled [108, slash, 120] smallWorld.context.rootCustody := by
    intro options fate walked
    have missing : smallWorld.walkAtLevel options symlinkRecursionLimit
        smallWorld.context.rootCustody (partsOf [108, slash, 120]) none =
          some (.missing (.child smallWorld.context.rootCustody [100] ⟨1, 3⟩ noMountFlags)
            [120]) := rfl
    obtain rfl := Option.some.inj (missing.symm.trans walked)
    exact id
  exact ⟨notMisled, (reportsMissing_iff smallWorld [108, slash, 120]
    smallWorld.context.rootCustody).1 notMisled⟩

/-- A file system with a regular file `f` and a link `l` to it. -/
def linkedFile : Files where
  inodes := fun inode =>
    if inode.index = 1 then
      ⟨⟨0o040755, 0, 0⟩, [([108], ⟨1, 2⟩), ([102], ⟨1, 3⟩)], []⟩
    else if inode.index = 2 then ⟨⟨0o120644, 0, 0⟩, [], [102]⟩
    else ⟨⟨0o100644, 0, 0⟩, [], []⟩
  isReadonly := fun _ => false

def linkedWorld : World := ⟨linkedFile, ⟨⟨1, 1⟩, noMountFlags, []⟩, ⟨0, 0, []⟩, .empty⟩

/-- The path `l/x` goes through a file.  Its lookup reports the root as the
parent, which stops the kernel in `mkdir` and makes an entry of the root in
`link`. -/
theorem not_reportsMissing_link :
    linkedWorld.resolvePathWithoutVeil [108, slash, 120] linkedWorld.context.rootCustody none {} 0 =
      some (.error .ENOTDIR, some linkedWorld.context.rootCustody) ∧
    linkedWorld.mkdir [108, slash, 120] 0o755 linkedWorld.context.rootCustody (.ok 4) = none ∧
    (linkedWorld.link [102] [108, slash, 120] linkedWorld.context.rootCustody (.ok ())).map
        (fun result => (result.1, result.2.lookup ⟨1, 1⟩ [120])) = some (.ok ⟨1, 3⟩, some ⟨1, 3⟩) ∧
    ¬ linkedWorld.ReportsMissing [108, slash, 120] linkedWorld.context.rootCustody := by
  have reported : linkedWorld.resolvePathWithoutVeil [108, slash, 120]
      linkedWorld.context.rootCustody none {} 0 =
        some (.error .ENOTDIR, some linkedWorld.context.rootCustody) := rfl
  refine ⟨reported, rfl, rfl, ?_⟩
  intro reportsMissing
  obtain ⟨never, _⟩ := reportsMissing.reports reported
  cases never

end MixUpOS.Kernel
