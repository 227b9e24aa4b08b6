import MixUpOS.Kernel.FileSystem.PathResolution

/-!
# Links at the end of a path

`O_NOFOLLOW` and `O_NOFOLLOW_NOERROR` are also given to the resolution of the
contents of a link in the middle of the path, whose last component is not the
last one of the path.
-/

namespace MixUpOS.Kernel

open AK

/-- The components lead along a link whose contents end at a link or bend in
turn; if `final` holds, a link at their own end counts too. -/
inductive Bends (world : World) : Bool → Custody → List StringView → Prop where
  | ends {custody : Custody} {part contents : StringView}
      (finds : world.FindsLink custody part contents) : Bends world true custody [part]
  | inside {final : Bool} {custody : Custody} {part contents : StringView} {rest : List StringView}
      (finds : world.FindsLink custody part contents)
      (inner : Bends world true (world.startOf contents custody) (components contents)) :
      Bends world final custody (part :: rest)
  | later {final : Bool} {custody middle : Custody} {part : StringView} {rest : List StringView}
      {count : Nat} (hop : Resolves world custody [part] middle count)
      (onward : Bends world final middle rest) : Bends world final custody (part :: rest)

namespace World

variable {world : World} {options : OpenOptions} {custody target : Custody}
  {name : StringView} {rest parts : List StringView} {count levels : Nat} {last : Option Custody}
  {fate : Fate} {next : Walker}

/-- What becomes of a walk at a link that it should have followed. -/
def Caught (world : World) (options : OpenOptions) (rest : List StringView) (fate : Fate) : Prop :=
  (∃ last, fate = .broken (if options.nofollow then .ELOOP else .ENOTDIR) last) ∨
    rest = [] ∧ options.nofollow = false ∧ ∃ link, fate = .found link ∧
      world.files.isSymlink link.inode = true

/-- A walk along components and the rest: it gets to the rest, unless the
components bend. -/
def Splits (world : World) (options : OpenOptions) (custody : Custody)
    (parts rest : List StringView) (target : Custody) (walked : Option Fate) : Prop :=
  (¬ Bends world (decide (rest = [])) custody parts ∧ ∃ levels last, walked =
      world.walkParts options (world.walkAtLevel options levels) rest target last) ∨
    Bends world (decide (rest = [])) custody parts ∧ ∃ fate, walked = some fate ∧
      world.Caught options rest fate

theorem splits_cons_iff {walked : Option Fate} (hop : Resolves world custody [part] middle count)
    (straight : ∀ contents, world.FindsLink custody part contents →
      (decide (rest = []) = true → parts ≠ []) ∧
        ¬ Bends world true (world.startOf contents custody) (components contents)) :
    world.Splits options custody (part :: parts) rest target walked ↔
      world.Splits options middle parts rest target walked := by
  rw [Splits, Splits]
  generalize decide (rest = []) = final at straight
  have same : Bends world final custody (part :: parts) ↔ Bends world final middle parts := by
    constructor
    · intro bends
      cases bends with
      | ends finds => exact absurd rfl ((straight _ finds).1 rfl)
      | inside finds inner => exact absurd inner (straight _ finds).2
      | later otherHop onward =>
        obtain ⟨rfl, _⟩ := otherHop.unique hop
        exact onward
    · exact .later hop
  rw [same]

section

variable (noVeil : world.veil.state = .none)
  (option : options.nofollow = true ∨ options.nofollowNoerror = true)

include noVeil option

/-- One link that the plain walk follows: the walk with the option is caught, or
goes on behind it. -/
theorem walkLink_splits (splits : ∀ {custody parts target rest last other},
      world.walkAtLevel {} levels custody parts other = some (.found target) →
      (rest ≠ [] → world.Searchable target) → world.Splits options custody parts rest target
        (world.walkAtLevel options levels custody (parts ++ rest) last))
    (directory : world.files.isDirectory custody.inode = true) (isName : IsName part)
    (found : world.files.lookup custody.inode part = some child)
    (isLink : world.files.isSymlink (world.enter custody part child).inode = true)
    (step : world.LinkStep {} (world.walkAtLevel {} levels) custody
      (world.enter custody part child) parts other (.found target))
    (behind : rest ≠ [] → world.Searchable target) :
    world.Splits options custody (part :: parts) rest target (world.walkLink options
      (world.walkAtLevel options levels) custody (world.enter custody part child)
        (parts ++ rest) last) := by
  generalize isFate : Fate.found target = fate at step
  cases step with
  | broken => cases isFate
  | stays _ stays => cases stays
  | inside _ inside onward safe fits =>
    subst isFate
    obtain ⟨middle, rfl, continues⟩ := walkOn_found onward
    obtain ⟨notEmpty, ⟨count, resolves⟩ | ⟨stays, _⟩⟩ := walkAtLevel_sound _ _ _ _ _ inside
    case inr => cases stays
    have inner := @splits _ _ _ [] last _ inside fun more => absurd rfl more
    rw [partsOf_eq notEmpty] at resolves
    rw [List.append_nil, partsOf_eq notEmpty] at inner
    have finds : world.FindsLink custody part _ := ⟨isName, child, found, isLink, rfl⟩
    by_cases isLast : parts ++ rest = []
    · -- The link at the end of the contents of another link.
      obtain ⟨rfl, rfl⟩ := List.append_eq_nil_iff.mp isLast
      refine .inr ⟨.ends finds, ?_⟩
      cases follows : options.nofollow with
      | true => exact ⟨_, by rw [walkLink, if_pos ⟨rfl, follows⟩], .inl ⟨last, by simp [follows]⟩⟩
      | false =>
        have stays := option.resolve_left (by simp [follows])
        refine ⟨.found _, ?_, .inr ⟨rfl, follows, _, rfl, isLink⟩⟩
        rw [walkLink, if_neg (by simp [follows]), if_pos ⟨rfl, stays⟩]
    · rw [walkLink_eq noVeil safe fits (fun both => isLast both.1) (fun both => isLast both.1),
        partsOf_eq notEmpty]
      obtain ⟨lower, rfl⟩ : ∃ lower, levels = lower + 1 := by
        cases levels with
        | zero => cases inside
        | succ lower => exact ⟨lower, rfl⟩
      rcases inner with ⟨straight, _, _, walked⟩ | ⟨bends, fate, walked, caught⟩
      · rw [walked, walkParts, Option.bind_some, walkOn_eq noVeil, if_neg isLast]
        have goesOn : world.walkAtLevel {} (lower + 1) middle ([dot] :: parts) (some middle) =
            some (.found target) := by
          rcases continues with ⟨rfl, rfl⟩ | ⟨_, goesOn⟩
          · have searchable := behind isLast
            exact walkParts_hop searchable (.stay searchable.1 (.inl rfl) (.done _))
          · exact goesOn
        obtain ⟨_, ⟨_, outer⟩ | ⟨stays, _⟩⟩ := walkAtLevel_sound _ _ _ _ _ goesOn
        case inr => cases stays
        have goesOnSplits := @splits _ _ _ rest (some middle) _ goesOn behind
        rw [splits_cons_iff (.stay outer.directory (.inl rfl) (.done _))
          fun _ finds => absurd (.inl rfl) (not_or.mpr finds.1.2)] at goesOnSplits
        refine (splits_cons_iff (.follow directory finds resolves (.done _))
          fun other otherFinds => ?_).mpr goesOnSplits
        cases finds.unique otherFinds
        refine ⟨fun isFinal isNil => isLast ?_, straight⟩
        rw [isNil, of_decide_eq_true isFinal, List.append_nil]
      · rw [walked, Option.bind_some]
        refine .inr ⟨.inside finds bends, ?_⟩
        rcases caught with ⟨last, rfl⟩ | ⟨_, follows, link, rfl, isLink⟩
        · exact ⟨_, rfl, .inl ⟨last, rfl⟩⟩
        · refine ⟨.broken .ENOTDIR (some link), ?_, .inl ⟨some link, by simp [follows]⟩⟩
          rw [walkOn_eq noVeil, if_neg isLast, walkAtLevel, walkParts,
            not_isDirectory_of_isSymlink isLink]
          rfl

theorem walkAtLevel_splits
    (walked : world.walkAtLevel {} levels custody parts other = some (.found target))
    (behind : rest ≠ [] → world.Searchable target) :
    world.Splits options custody parts rest target
      (world.walkAtLevel options levels custody (parts ++ rest) last) := by
  induction levels generalizing custody target parts rest last other with
  | zero => cases walked
  | succ levels outer =>
    cases parts with
    | nil => cases walked
    | cons part parts =>
      rw [walkAtLevel] at walked
      rw [List.cons_append, walkAtLevel, ← List.cons_append]
      generalize part :: parts = parts at walked
      induction parts generalizing custody with
      | nil =>
        cases walked
        refine .inl ⟨?_, levels, last, rfl⟩
        generalize decide (rest = []) = final
        intro bends
        cases bends
      | cons part parts ih =>
        generalize isFate : Fate.found target = fate at walked
        cases walkParts_cases walked with
        | broken => cases isFate
        | missing => split_ifs at isFate
        | hop step onward searchable =>
          subst isFate
          rw [List.cons_append, walkParts_hop searchable step]
          exact (splits_cons_iff step fun _ finds => absurd step finds.not_hop).mpr (ih onward)
        | link directory isName found isLink step searchable =>
          subst isFate
          rw [List.cons_append, walkParts_link searchable isName found isLink]
          exact walkLink_splits noVeil option outer directory isName found isLink step behind

end

/-- What a path of one component gives in a directory. -/
def lastResult (world : World) (options : OpenOptions) (directory : Custody) (name : StringView) :
    ErrorOr Custody :=
  if name = [dot, dot] then .ok (directory.parent.getD directory)
  else if name = [dot] then .ok directory
  else
    match world.files.lookup directory.inode name with
    | none => .error .ENOENT
    | some child =>
      let entered := world.enter directory name child
      if options.nofollow && world.files.isSymlink entered.inode then .error .ELOOP
      else .ok entered

section

variable (named : name ≠ [])

include named

theorem walkParts_last (option : options.nofollow = true ∨ options.nofollowNoerror = true)
    (searchable : world.Searchable directory) :
    (world.walkParts options next [name] directory last).map (Prod.fst ∘ Fate.resolution) =
      some (world.lastResult options directory name) := by
  rw [walkParts_eq searchable, lastResult]
  simp only [named, or_false]
  split_ifs with isUp isHere
  · rfl
  · rfl
  cases world.files.lookup directory.inode name with
  | none => rfl
  | some child =>
    cases isLink : world.files.isSymlink (world.enter directory name child).inode with
    | false => simp [isLink, walkParts, Fate.resolution]
    | true =>
      cases follows : options.nofollow with
      | true => simp [isLink, walkLink, follows, Fate.resolution]
      | false => simp [isLink, walkLink, follows, option.resolve_left, Fate.resolution]

theorem lastResult_eq_error_iff : world.lastResult options directory name =
      .error (if options.nofollow then .ELOOP else .ENOTDIR) ↔
    options.nofollow = true ∧ ∃ contents, world.FindsLink directory name contents := by
  rw [lastResult]
  simp only [FindsLink, IsName]
  by_cases isUp : name = [dot, dot]
  · simp [isUp]
  by_cases isHere : name = [dot]
  · simp [isHere]
  rw [if_neg isUp, if_neg isHere]
  cases world.files.lookup directory.inode name with
  | none => cases options.nofollow <;> simp
  | some child => cases options.nofollow <;> simp [isUp, isHere, named]

end

end World

/-- Behind a path to a directory, the last component gives what it gives in the
directory itself, exactly if no link on the way has contents that bend, or if
the answer is `ELOOP` in any case. -/
theorem nofollow_last_iff {world : World} {options : OpenOptions} {base directory : Custody}
    {path name : StringView} {outParent : Option Custody} (noVeil : world.veil.state = .none)
    (option : options.nofollow = true ∨ options.nofollowNoerror = true)
    (resolved : world.resolvePathWithoutVeil path base none {} 0 = some (.ok directory, outParent))
    (searchable : world.Searchable directory) (named : name ≠ []) (noSlash : slash ∉ name) :
    (world.resolvePathWithoutVeil name directory none options 0).map Prod.fst =
        some (world.lastResult options directory name) ∧
      ((world.resolvePathWithoutVeil (path ++ slash :: name) base none options 0).map Prod.fst =
          (world.resolvePathWithoutVeil name directory none options 0).map Prod.fst ↔
        ¬ Bends world false (world.startOf path base) (components path) ∨
          options.nofollow = true ∧ ∃ contents, world.FindsLink directory name contents) := by
  have walks : ∀ path base, (world.resolvePathWithoutVeil path base none options 0).map Prod.fst =
      (world.walkAtLevel options symlinkRecursionLimit (world.startOf path base)
        (partsOf path) none).map (Prod.fst ∘ Fate.resolution) := by
    intro path base
    rw [← Option.map_map, resolvePathWithoutVeil_eq]
  have alone : (world.resolvePathWithoutVeil name directory none options 0).map Prod.fst =
      some (world.lastResult options directory name) := by
    have start : world.startOf name directory = directory := by
      cases name with
      | nil => rfl
      | cons first rest =>
        have notSlash : ¬ first = slash := fun same => noSlash (by simp [same])
        simp [World.startOf, notSlash]
    rw [walks, start, partsOf_of_ne_nil named, components, List.splitOn_eq_singleton noSlash]
    exact World.walkParts_last named option searchable
  refine ⟨alone, ?_⟩
  obtain ⟨_, notEmpty, walked⟩ := resolvePathWithoutVeil_ok resolved
  have start : world.startOf (path ++ slash :: name) base = world.startOf path base := by
    cases path with
    | nil => exact absurd rfl notEmpty
    | cons first rest => rfl
  have parts : components (path ++ slash :: name) = components path ++ [name] := by
    rw [components, List.splitOn_append_cons_self, List.splitOn_eq_singleton noSlash, components]
  rw [alone, walks, start, partsOf_of_ne_nil (by simp), parts]
  rcases World.walkAtLevel_splits noVeil option walked fun _ => searchable with
    ⟨straight, _, _, walked⟩ | ⟨bends, fate, walked, caught⟩
  · rw [walked, World.walkParts_last named option searchable]
    exact iff_of_true rfl (.inl straight)
  · obtain ⟨last, rfl⟩ := caught.resolve_right fun both => by simp at both
    rw [walked]
    have bent : ¬¬ Bends world false (world.startOf path base) (components path) :=
      not_not_intro bends
    rw [Option.map_some, Option.some.injEq, eq_comm, or_iff_right bent]
    exact World.lastResult_eq_error_iff named

/-- A missing name behind the link to the directory. -/
theorem nofollow_last_iff_link :
    (smallWorld.resolvePathWithoutVeil [108, slash, 120] smallWorld.context.rootCustody none
      { nofollow := true } 0).map Prod.fst = some (.error .ENOENT) := by
  obtain ⟨alone, same⟩ := @nofollow_last_iff smallWorld { nofollow := true }
    smallWorld.context.rootCustody _ [108] [120] _ rfl (.inl rfl) rfl ⟨rfl, rfl⟩
    (List.cons_ne_nil _ _) (by decide)
  refine (same.mpr (.inl ?_)).trans alone
  intro bends
  cases bends with
  | inside finds inner =>
    obtain ⟨_, _, found, _, rfl⟩ := finds
    cases found
    cases inner with
    | ends finds | inside finds =>
      obtain ⟨_, _, found, isLink, _⟩ := finds
      cases found
      cases isLink
    | later _ onward => cases onward
  | later _ onward => cases onward

/-- With `O_NOFOLLOW` the file is not found through the first link. -/
theorem not_nofollow_last_chain : ∃ directory file,
    ({ smallWorld with files := chainFiles }).resolvePathWithoutVeil [109]
        smallWorld.context.rootCustody none {} 0 = some (.ok directory, directory.parent) ∧
      (({ smallWorld with files := chainFiles }).resolvePathWithoutVeil [120] directory none
        { nofollow := true } 0).map Prod.fst = some (.ok file) ∧
      (({ smallWorld with files := chainFiles }).resolvePathWithoutVeil [109, slash, 120]
        smallWorld.context.rootCustody none { nofollow := true } 0).map Prod.fst =
          some (.error .ELOOP) :=
  ⟨_, _, rfl, rfl, rfl⟩

end MixUpOS.Kernel
