import MixUpOS.Kernel.Memory.AddressSpaceMappings

/-!
# Splitting regions

Carving a range out of a region leaves at most two parts.  The commands that
take a region out of the tree and put the parts back are described here by
the mappings before and after.
-/

namespace MixUpOS.Kernel.Memory

open AK Library Library.Programs VirtualRange List

namespace VirtualRange

variable {source desired : VirtualRange}

/-- Two ranges with a common address. -/
def Meets (range other : VirtualRange) : Prop := range.base < other.stop ∧ other.base < range.stop

theorem meets_of_contains (nonempty : 0 < desired.size) (above : source.base ≤ desired.base)
    (below : desired.stop ≤ source.stop) : source.Meets desired := by
  have order : desired.base < desired.stop := Nat.lt_add_of_pos_right nonempty
  exact ⟨Nat.lt_of_le_of_lt above order, Nat.lt_of_lt_of_le order below⟩

/-- What carving leaves, as numbers. -/
def carvedParts (source desired : VirtualRange) : List VirtualRange :=
  (if source.base < desired.base then
    [⟨source.base, desired.base - source.base⟩] else []) ++
  (if desired.stop < source.stop then
    [⟨desired.stop, source.stop - desired.stop⟩] else [])

theorem carve_eq (bounded : source.Bounded) (desiredBounded : desired.Bounded)
    (pages : desired.size % pageSize = 0) :
    source.carve desired = some (carvedParts source desired) := by
  have sourceEnd : source.stop < 2 ^ 64 := bounded
  have desiredEnd : desired.stop < 2 ^ 64 := desiredBounded
  have order : desired.base ≤ desired.stop := Nat.le_add_right _ _
  unfold carve carvedParts
  rw [bounded.endAddress, desiredBounded.endAddress]
  simp only [pages, beq_self_eq_true, verify_true, Option.pure_def, some_bind]
  split
  next same =>
    rw [same]
    simp
  · apply congrArg some
    congr 1
    · split
      · rw [addressDifference_eq (by omega) (by omega)]
      · rfl
    · split
      · rw [addressDifference_eq (by omega) (by omega)]
      · rfl

/-- Ranges of pages in a range, one after the other. -/
structure Pieces (source : VirtualRange) (parts : List VirtualRange) : Prop where
  pages : ∀ part ∈ parts, part.PageAligned
  nonempty : ∀ part ∈ parts, 0 < part.size
  inside : ∀ part ∈ parts, source.base ≤ part.base ∧ part.stop ≤ source.stop
  apart : parts.Pairwise fun part other => part.stop ≤ other.base

/-- The parts of a range outside another one. -/
structure Carved (source desired : VirtualRange) (parts : List VirtualRange) : Prop
    extends Pieces source parts where
  avoids : ∀ part ∈ parts, part.stop ≤ desired.base ∨ desired.stop ≤ part.base
  exact : ∀ address, source.Holds address →
    ((∃ part ∈ parts, part.Holds address) ↔ ¬ desired.Holds address)

theorem carved_carvedParts (meets : source.Meets desired)
    (pages : source.PageAligned) (desiredPages : desired.PageAligned) :
    Carved source desired (carvedParts source desired) := by
  obtain ⟨below, above⟩ := meets
  obtain ⟨basePages, sizePages⟩ := pages
  obtain ⟨desiredBasePages, desiredSizePages⟩ := desiredPages
  have mem : ∀ {part : VirtualRange}, part ∈ carvedParts source desired ↔
        (source.base < desired.base ∧ part = ⟨source.base, desired.base - source.base⟩) ∨
        (desired.stop < source.stop ∧ part = ⟨desired.stop, source.stop - desired.stop⟩) := by
    intro part
    unfold carvedParts
    split <;> split <;> simp_all
  unfold stop pageSize at *
  have facts : ∀ part ∈ carvedParts source desired, part.PageAligned ∧ 0 < part.size ∧
      (source.base ≤ part.base ∧ part.stop ≤ source.stop) ∧
      (part.stop ≤ desired.base ∨ desired.stop ≤ part.base) := by
    intro part member
    unfold PageAligned stop pageSize
    rcases mem.mp member with ⟨order, rfl⟩ | ⟨order, rfl⟩
    · dsimp only
      omega
    · dsimp only
      omega
  refine ⟨⟨fun part member => (facts part member).1, fun part member => (facts part member).2.1,
    fun part member => (facts part member).2.2.1, ?_⟩,
    fun part member => (facts part member).2.2.2, ?_⟩
  · unfold carvedParts
    split
    · split
      · apply pairwise_pair.mpr
        unfold stop
        dsimp only
        omega
      · exact pairwise_singleton _ _
    · split
      · exact pairwise_singleton _ _
      · exact .nil
  · intro address holds
    unfold Holds stop at *
    constructor
    · intro ⟨part, member, partHolds⟩
      rcases mem.mp member with ⟨order, rfl⟩ | ⟨order, rfl⟩
      · dsimp only at partHolds
        omega
      · dsimp only at partHolds
        omega
    · intro outside
      by_cases before : address < desired.base
      · refine ⟨_, mem.mpr (.inl ⟨by omega, rfl⟩), ?_⟩
        dsimp only
        omega
      · refine ⟨_, mem.mpr (.inr ⟨by omega, rfl⟩), ?_⟩
        dsimp only
        omega

theorem carvedParts_ne_nil (outside : source.base < desired.base ∨ desired.stop < source.stop) :
    source.carvedParts desired ≠ [] := by
  intro empty
  obtain ⟨noneBefore, noneAfter⟩ := append_eq_nil_iff.mp empty
  rcases outside with before | after
  · rw [if_pos before] at noneBefore
    cases noneBefore
  · rw [if_pos after] at noneAfter
    cases noneAfter

theorem intersect_eq (bounded : source.Bounded)
    (desiredBounded : desired.Bounded) (meets : source.Meets desired)
    (nonempty : 0 < source.size) (desiredNonempty : 0 < desired.size) :
    source.intersect desired = some ⟨max source.base desired.base,
        min source.stop desired.stop - max source.base desired.base⟩ := by
  obtain ⟨below, above⟩ := meets
  have desiredEnd : desired.stop < 2 ^ 64 := desiredBounded
  unfold stop at *
  unfold intersect
  rw [bounded.endAddress, desiredBounded.endAddress]
  unfold stop
  split
  next same =>
    rw [same]
    simp
  · have order : max source.base desired.base <
        min (source.base + source.size) (desired.base + desired.size) := by
      omega
    dsimp only
    rw [verify_eq_some (decide_eq_true order), addressDifference_eq (by omega) (by omega)]
    rfl

end VirtualRange

namespace AddressSpace

/-- All requests for memory are granted, under a condition that the calling
code has to meet. -/
def Live (healthy : Prop) (space : AddressSpace) : Prop :=
  healthy ∧ ∀ index, space.memory index = true

section

variable {space : AddressSpace} {boot : BootInfo} {region source : Region} {range : VirtualRange}

/-- The region tree of the later state is the one before. -/
def SameTree (space : AddressSpace) (_ : Unit) (later : AddressSpace) : Prop :=
  later.regionTree = space.regionTree

theorem requestMemory_delivers : Delivers (Live healthy) requestMemory space (SameTree space) := by
  cases granted : space.memory 0 with
  | true =>
    apply Delivers.of_outcome
    · exact if_pos granted
    · intro live
      exact ⟨live.1, fun index => live.2 (index + 1)⟩
    · rfl
  | false =>
    apply Delivers.of_failure
    · intro live
      have answer := live.2 0
      rw [granted] at answer
      cases answer
    · intro value later success
      have refused : outcome requestMemory space = some (.error .ENOMEM,
          { space with memory := fun index => space.memory (index + 1) }) :=
        if_neg (by rw [granted]; exact Bool.false_ne_true)
      rw [refused] at success
      cases success

theorem sameTree_bind (sameFirst : Delivers (Live healthy) first space (SameTree space))
    (sameSecond : ∀ later, Delivers (Live healthy) second later (SameTree later)) :
    Delivers (Live healthy) (first >>= fun _ => second) space (SameTree space) := by
  apply sameFirst.bind
  intro _ later same
  apply (sameSecond later).weaken
  intro _ final sameFinal
  exact sameFinal.trans same

theorem readTree_delivers : Delivers (Live healthy) readTree space
    fun tree later => tree = space.regionTree ∧ later = space :=
  .of_outcome rfl id ⟨rfl, rfl⟩

theorem writeTree_delivers (tree : RegionTree) :
    Delivers (Live healthy) (writeTree tree) space fun _ later => later.regionTree = tree :=
  .of_outcome rfl id rfl

/-- A region that the code may map. -/
structure Mappable (boot : BootInfo) (region : Region) : Prop where
  inode : region.shared = false → region.vmobject.isSharedInode = false
  above : BootInfo.userRangeBase ≤ region.base
  below : region.stop ≤ boot.userRangeCeiling
  nonempty : 0 < region.range.size / pageSize

theorem Mappable.page_allowed (mappable : Mappable boot region)
    (within : page < region.range.size / pageSize) :
    BootInfo.userRangeBase ≤ offsetAddress region.base (page * pageSize) ∧
      boot.isUserAddress (offsetAddress region.base (page * pageSize)) = true := by
  have ceiling : boot.userRangeCeiling < 2 ^ 64 := Nat.mod_lt _ (Nat.two_pow_pos 64)
  have above := mappable.above
  have below : region.base + region.range.size ≤ boot.userRangeCeiling := mappable.below
  unfold pageSize at within ⊢
  have exactAddress : offsetAddress region.base (page * 4096) = region.base + page * 4096 := by
    unfold offsetAddress
    omega
  refine ⟨by omega, ?_⟩
  apply decide_eq_true
  omega

theorem mapPages_delivers (within : ∀ page ∈ pages, page < region.range.size / pageSize)
    (mappable : healthy → Mappable boot region) :
    Delivers (Live healthy) (mapPages boot region pages) space (SameTree space) := by
  induction pages generalizing space with
  | nil => exact Delivers.pure rfl
  | cons page rest ih =>
    apply Delivers.assert_bind
    · intro live
      obtain ⟨above, below⟩ := (mappable live.1).page_allowed (within page mem_cons_self)
      simp [above, below]
    · intro _
      exact sameTree_bind requestMemory_delivers fun _ =>
        ih (forall_mem_cons.mp within).2

theorem map_delivers (mappable : healthy → Mappable boot region) :
    Delivers (Live healthy) (map boot region) space (SameTree space) := by
  apply Delivers.assert_bind
  · intro live
    have inode := (mappable live.1).inode
    cases shared : region.shared with
    | true => simp
    | false => simp [inode shared]
  · intro _
    apply Delivers.refuseIf_bind
    · intro live
      have nonempty := (mappable live.1).nonempty
      exact beq_false_of_ne (Nat.ne_of_gt nonempty)
    · intro _
      apply mapPages_delivers _ mappable
      intro page member
      exact mem_range.mp member

theorem mapAll_delivers (mappable : healthy → ∀ region ∈ regions, Mappable boot region) :
    Delivers (Live healthy) (mapAll boot regions) space (SameTree space) := by
  induction regions generalizing space with
  | nil => exact Delivers.pure rfl
  | cons region rest ih =>
    apply sameTree_bind
    · exact map_delivers fun condition => mappable condition region mem_cons_self
    · intro _
      exact ih fun condition => (forall_mem_cons.mp (mappable condition)).2

theorem takeRegion_delivers (placed : space.regionTree.WellPlaced)
    (member : region ∈ space.regionTree.regions) :
    Delivers (Live healthy) (takeRegion region) space fun _ later =>
      later.regionTree = (space.regionTree.remove region).1 := by
  have found : (space.regionTree.remove region).2 = true := by
    have key := placed.separated.find_eq_some.mpr ⟨member, rfl⟩
    change Option.isSome (Intervals.find _ _ _) = true
    rw [key]
    rfl
  apply Delivers.bind readTree_delivers
  intro tree _ ⟨treeEq, spaceEq⟩
  rw [treeEq]
  apply Delivers.bind (writeTree_delivers _)
  intro _ later written
  apply Delivers.assert
  · intro _
    exact found
  · intro _
    exact written

theorem placeSpecifically_delivers (placed : space.regionTree.WellPlaced)
    (placeable : space.regionTree.Placeable range.size range) :
    Delivers (Live healthy) (placeSpecifically region range) space
      fun result later => result = { region with range := range } ∧
        later.regionTree = space.regionTree.insertAt region range := by
  have below : range.base + range.size ≤ space.regionTree.totalRange.stop := placeable.free.below
  have bound : space.regionTree.totalRange.stop < 2 ^ 64 := placed.bounded
  have allocated : space.regionTree.placeSpecifically region range =
      some (.ok (space.regionTree.insertAt region range)) := by
    rcases placed.allocateRangeSpecific placeable.nonempty placeable.pages.1
      placeable.pages.2 (by omega) (by omega) with
      ⟨_, success⟩ | ⟨occupied, _⟩
    · unfold RegionTree.placeSpecifically
      rw [success]
      rfl
    · exact absurd placeable.free occupied
  apply Delivers.bind readTree_delivers
  intro tree _ ⟨treeEq, spaceEq⟩
  rw [treeEq, allocated, asserted_some_bind, fallible_ok_bind]
  apply Delivers.bind (writeTree_delivers _)
  intro _ later written
  exact Delivers.pure ⟨rfl, written⟩

/-- The region that a part of a split region becomes. -/
def splitPart (source : Region) (part : VirtualRange) : Region :=
  { splitRegion source (splitOffset source part.base) with range := part }

theorem splitPart_mappingAt (above : source.base ≤ part.base) (holds : part.Holds address)
    (bound : address < 2 ^ 64) :
    (splitPart source part).mappingAt address = source.mappingAt address := by
  have start := holds.1
  have offsets : (splitOffset source part.base + addressDifference address part.base) % 2 ^ 64 =
      (source.offsetInVMObject + addressDifference address source.base) % 2 ^ 64 := by
    unfold splitOffset
    rw [addressDifference_eq above (by omega), addressDifference_eq start bound,
      addressDifference_eq (by omega) bound]
    omega
  unfold Region.mappingAt
  congr 1

theorem splitPart_mappable (mappable : Mappable boot source) (above : source.base ≤ part.base)
    (below : part.stop ≤ source.stop) (nonempty : 0 < part.size) (pages : part.PageAligned) :
    Mappable boot (splitPart source part) := by
  have sizePages := pages.2
  refine ⟨mappable.inode, Nat.le_trans mappable.above above, Nat.le_trans below mappable.below, ?_⟩
  change 0 < part.size / pageSize
  unfold pageSize at sizePages ⊢
  omega

theorem splitParts_mappable (mappable : Mappable boot source)
    (carved : Carved source.range desired parts) :
    ∀ new ∈ parts.map (splitPart source), Mappable boot new := by
  intro new newMember
  obtain ⟨part, partMember, rfl⟩ := mem_map.mp newMember
  obtain ⟨above, below⟩ := carved.inside part partMember
  exact splitPart_mappable mappable above below
    (carved.nonempty part partMember) (carved.pages part partMember)

theorem tryAllocateSplitRegion_delivers (placed : space.regionTree.WellPlaced)
    (placeable : space.regionTree.Placeable range.size range) :
    Delivers (Live healthy) (tryAllocateSplitRegion source range (splitOffset source range.base))
      space fun result later => result = splitPart source range ∧
        later.regionTree = space.regionTree.insertAt (splitPart source range) range := by
  have named : Delivers (Live healthy) (copyName source) space (SameTree space) := by
    unfold copyName
    split
    · exact requestMemory_delivers
    · exact Delivers.pure rfl
  apply Delivers.bind named
  intro _ first sameFirst
  apply Delivers.bind requestMemory_delivers
  intro _ second sameSecond
  have same : second.regionTree = space.regionTree := sameSecond.trans sameFirst
  rw [← same] at placed placeable ⊢
  exact placeSpecifically_delivers placed placeable

/-- From `tree` to `later` the parts are mapped as `source` maps them. -/
structure Restored (source : Region) (parts : List VirtualRange)
    (tree later : RegionTree) : Prop where
  placed : later.WellPlaced
  total : later.totalRange = tree.totalRange
  kept : ∀ region ∈ tree.regions, region ∈ later.regions
  free : ∀ lower upper, tree.Free lower upper →
    (∀ part ∈ parts, part.stop ≤ lower ∨ upper ≤ part.base) →
    later.Free lower upper
  inside : ∀ address, (∃ part ∈ parts, part.Holds address) →
    later.mappingAt address = some (source.mappingAt address)
  outside : ∀ address, (∀ part ∈ parts, ¬ part.Holds address) →
    later.mappingAt address = tree.mappingAt address

theorem Restored.nil (placed : tree.WellPlaced) : Restored source [] tree tree :=
  ⟨placed, rfl, fun _ member => member, fun _ _ free _ => free, by simp, fun _ _ => rfl⟩

theorem Restored.insertAt (placed : tree.WellPlaced) (placeable : tree.Placeable part.size part)
    (above : source.base ≤ part.base) :
    Restored source [part] tree (tree.insertAt (splitPart source part) part) := by
  have bound : tree.totalRange.stop < 2 ^ 64 := placed.bounded
  have below := placeable.free.below
  refine ⟨placed.insertAt placeable, rfl, ?_, ?_, ?_, ?_⟩
  · intro region member
    exact Intervals.mem_insert.mpr (.inr member)
  · intro lower upper free apart
    refine ⟨free.above, free.below, ?_⟩
    intro region member
    rcases Intervals.mem_insert.mp member with rfl | old
    · exact apart part mem_cons_self
    · exact free.avoids region old
  · intro address ⟨holder, member, holds⟩
    rw [mem_singleton.mp member] at holds
    have within : address < tree.totalRange.stop := Nat.lt_of_lt_of_le holds.2 below
    rw [placed.mappingAt_insertAt placeable, if_pos holds]
    change some ((splitPart source part).mappingAt address) = _
    rw [splitPart_mappingAt above holds (Nat.lt_trans within bound)]
  · intro address outside
    rw [placed.mappingAt_insertAt placeable, if_neg (outside part mem_cons_self)]

theorem Restored.cons (first : Restored source [part] tree middle)
    (rest : Restored source parts middle later) : Restored source (part :: parts) tree later := by
  refine ⟨rest.placed, rest.total.trans first.total, ?_, ?_, ?_, ?_⟩
  · intro region member
    exact rest.kept region (first.kept region member)
  · intro lower upper free apart
    apply rest.free
    · apply first.free lower upper free
      intro other member
      rw [mem_singleton.mp member]
      exact apart part mem_cons_self
    · exact (forall_mem_cons.mp apart).2
  · intro address ⟨holder, member, holds⟩
    by_cases inRest : ∃ other ∈ parts, other.Holds address
    · exact rest.inside address inRest
    · rw [rest.outside address fun other otherMember otherHolds =>
        inRest ⟨other, otherMember, otherHolds⟩]
      rcases mem_cons.mp member with rfl | later
      · exact first.inside address ⟨holder, by simp, holds⟩
      · exact absurd ⟨holder, later, holds⟩ inRest
  · intro address outside
    rw [rest.outside address (forall_mem_cons.mp outside).2]
    apply first.outside
    intro other member
    rw [mem_singleton.mp member]
    exact outside part mem_cons_self

/-- Parts that can be put back one after the other. -/
structure Fillable (source : Region) (tree : RegionTree) (parts : List VirtualRange) : Prop
    extends Pieces source.range parts where
  free : ∀ part ∈ parts, tree.Free part.base part.stop

theorem Fillable.placeable (fillable : Fillable source tree (part :: parts)) :
    tree.Placeable part.size part :=
  ⟨⟨rfl, fillable.free part mem_cons_self⟩, fillable.nonempty part mem_cons_self,
    fillable.pages part mem_cons_self⟩

theorem Fillable.rest (fillable : Fillable source tree (part :: parts))
    (restored : Restored source [part] tree later) : Fillable source later parts := by
  obtain ⟨after, apart⟩ := pairwise_cons.mp fillable.apart
  refine ⟨⟨(forall_mem_cons.mp fillable.pages).2, (forall_mem_cons.mp fillable.nonempty).2,
    (forall_mem_cons.mp fillable.inside).2, apart⟩, ?_⟩
  intro other member
  apply restored.free
  · exact fillable.free other (mem_cons_of_mem _ member)
  · intro first firstMember
    rw [mem_singleton.mp firstMember]
    exact .inl (after other member)

theorem makeReplacementRegions_delivers (placed : space.regionTree.WellPlaced)
    (bounded : source.range.Bounded) (fillable : Fillable source space.regionTree parts) :
    Delivers (Live healthy) (makeReplacementRegions source parts) space
      fun result later => result = parts.map (splitPart source) ∧
        Restored source parts space.regionTree later.regionTree := by
  induction parts generalizing space with
  | nil =>
    exact Delivers.pure ⟨rfl, .nil placed⟩
  | cons part parts ih =>
    obtain ⟨above, below⟩ := fillable.inside part mem_cons_self
    have contained : source.range.contains part = true := by
      have sourceEnd : source.range.base + source.range.size < 2 ^ 64 := bounded
      unfold stop at below
      apply (contains_iff bounded (by omega) (by omega)).mpr
      exact ⟨above, below⟩
    apply Delivers.assert_bind
    · intro _
      exact contained
    intro _
    apply Delivers.bind (tryAllocateSplitRegion_delivers placed fillable.placeable)
    intro region middle ⟨regionEq, middleEq⟩
    have restored : Restored source [part] space.regionTree middle.regionTree := by
      rw [middleEq]
      exact .insertAt placed fillable.placeable above
    apply Delivers.bind (ih restored.placed (fillable.rest restored))
    intro regions later ⟨regionsEq, restoredRest⟩
    apply Delivers.pure
    rw [regionEq, regionsEq]
    exact ⟨rfl, restored.cons restoredRest⟩

theorem takeAndSplit_delivers (placed : space.regionTree.WellPlaced)
    (member : region ∈ space.regionTree.regions) (bounded : range.Bounded)
    (pages : range.PageAligned) (meets : region.range.Meets range)
    (left : region.range.carvedParts range ≠ []) :
    Delivers (Live healthy) (takeAndSplit region range) space fun result later =>
        result = (region.range.carvedParts range).map (splitPart region) ∧
        Restored region (region.range.carvedParts range)
          (space.regionTree.remove region).1 later.regionTree := by
  have regionBounded := placed.regionBounded member
  have carved := carved_carvedParts meets (placed.aligned region member) pages
  have free := placed.free_remove member
  have fillable : Fillable region (space.regionTree.remove region).1
      (region.range.carvedParts range) := by
    refine ⟨carved.toPieces, ?_⟩
    intro part partMember
    obtain ⟨above, below⟩ := carved.inside part partMember
    refine ⟨Nat.le_trans free.above above, Nat.le_trans below free.below, ?_⟩
    intro other otherMember
    rcases free.avoids other otherMember with before | after
    · exact .inl (Nat.le_trans before above)
    · exact .inr (Nat.le_trans below after)
  apply Delivers.bind (takeRegion_delivers placed member)
  intro _ taken takenEq
  unfold trySplitRegionAroundRange
  rw [carve_eq regionBounded bounded pages.2, ← takenEq]
  rw [← takenEq] at fillable
  apply Delivers.assert_bind
  · intro _
    simpa using left
  · intro _
    apply makeReplacementRegions_delivers _ regionBounded fillable
    rw [takenEq]
    exact placed.remove region

/-- Putting back the parts outside the range removes the mappings of the
region in the range. -/
theorem Restored.rewritten {tree : RegionTree} (placed : tree.WellPlaced)
    (member : region ∈ tree.regions) (carved : region.range.Carved range parts)
    (restored : Restored region parts (tree.remove region).1 later) :
    tree.Rewritten (fun _ => none) range [region] later := by
  have within : ∀ part ∈ parts, ∀ address, part.Holds address → region.range.Holds address := by
    intro part partMember address holds
    obtain ⟨above, below⟩ := carved.inside part partMember
    exact ⟨Nat.le_trans above holds.1, Nat.lt_of_lt_of_le holds.2 below⟩
  refine ⟨restored.placed, restored.total, ?_, ?_, ?_⟩
  · intro other otherMember differ
    apply restored.kept
    apply placed.separated.mem_remove.mpr
    refine ⟨otherMember, ?_⟩
    intro same
    apply differ
    rw [placed.separated.eq_of_start otherMember member same]
    exact mem_singleton_self _
  · intro address inRange ⟨holder, holderMember, holds⟩
    rw [mem_singleton.mp holderMember] at holds
    have absent : ∀ part ∈ parts, ¬ part.Holds address := by
      intro part partMember partHolds
      exact (carved.exact address holds).mp ⟨part, partMember, partHolds⟩ inRange
    rw [restored.outside address absent, placed.mappingAt_remove member, if_pos holds]
    cases tree.mappingAt address with
    | none | some mapping => rfl
  · intro address outside
    by_cases holds : region.range.Holds address
    · have notInRange : ¬ range.Holds address := fun inRange =>
        outside inRange region mem_cons_self holds
      rw [restored.inside address ((carved.exact address holds).mpr notInRange),
        placed.mappingAt_of_mem member holds]
    · rw [restored.outside address fun part partMember partHolds =>
        holds (within part partMember address partHolds),
        placed.mappingAt_remove member, if_neg holds]

end

end AddressSpace

end MixUpOS.Kernel.Memory
