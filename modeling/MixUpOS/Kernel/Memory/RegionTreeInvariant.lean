import MixUpOS.Kernel.Memory.RegionTree

/-!
# Regions never overlap

The placement functions look at one neighbour or at a running window.  This
module says what they return on a tree whose regions are disjoint, and follows
a tree through every sequence of placements and removals.
-/

namespace MixUpOS.Kernel.Memory

open AK Library VirtualRange

namespace VirtualRange

/-- Base and size are multiples of the page size. -/
def PageAligned (range : VirtualRange) : Prop :=
  range.base % pageSize = 0 ∧ range.size % pageSize = 0

end VirtualRange

namespace RegionTree

/-- The numbers from `lower` to `upper` lie in the total range and in no
region. -/
structure Free (tree : RegionTree) (lower upper : Nat) : Prop where
  above : tree.totalRange.base ≤ lower
  below : upper ≤ tree.totalRange.stop
  avoids : ∀ region ∈ tree.regions, Intervals.Avoids Region.base Region.stop lower upper region

/-- The regions lie in the total range and are disjoint. -/
structure WellPlaced (tree : RegionTree) : Prop where
  bounded : tree.totalRange.Bounded
  separated : Intervals.Separated Region.base Region.stop tree.regions
  inside : ∀ region ∈ tree.regions, tree.totalRange.base ≤ region.base ∧
      region.stop ≤ tree.totalRange.stop
  aligned : ∀ region ∈ tree.regions, region.range.PageAligned

theorem WellPlaced.regionBounded (placed : WellPlaced tree) (member : region ∈ tree.regions) :
    region.range.Bounded :=
  Nat.lt_of_le_of_lt (placed.inside region member).2 placed.bounded

section

variable {size align : Nat} {range : VirtualRange}

/-- A rounded address without wrap-around. -/
def Rounded (align address : Nat) : Prop :=
  ∃ value, value + align ≤ 2 ^ 64 ∧ address = roundUpToPowerOfTwo value align

theorem allocateFromWindow_some (pos : 0 < align) (fits : window.stop ≤ 2 ^ 64)
    (found : allocateFromWindow size align window = some range) :
    range.size = size ∧ window.base ≤ range.base ∧
      range.stop ≤ window.stop ∧ Rounded align range.base := by
  unfold allocateFromWindow at found
  split at found
  · cases found
  next large =>
    cases found
    unfold stop at fits ⊢
    have room : window.base + align ≤ 2 ^ 64 := by omega
    have bounds := roundUpToPowerOfTwo_bounds pos room
    refine ⟨rfl, bounds.1, ?_, window.base, room, rfl⟩
    change roundUpToPowerOfTwo window.base align + size ≤ _
    omega

theorem allocateFromWindow_none (failed : allocateFromWindow size align window = none) :
    window.stop < window.base + (size + align) := by
  unfold allocateFromWindow at failed
  split at failed
  next small =>
    unfold stop
    omega
  · cases failed

end

section

variable {size align windowStart limit : Nat} {regions : List Region}

theorem window_stop (order : lower ≤ upper) (bound : upper < 2 ^ 64) :
    (VirtualRange.mk lower (addressDifference upper lower)).stop = upper := by
  rw [VirtualRange.addressDifference_eq order bound]
  exact Nat.add_sub_cancel' order

/-- The regions that the search still has to pass. -/
structure Ahead (limit windowStart : Nat) (regions : List Region) : Prop where
  bound : limit < 2 ^ 64
  start : windowStart ≤ limit
  separated : Intervals.Separated Region.base Region.stop regions
  above : ∀ region ∈ regions, windowStart ≤ region.base
  below : ∀ region ∈ regions, region.stop ≤ limit

theorem Ahead.next (ahead : Ahead limit windowStart (region :: rest)) :
    Ahead limit region.range.endAddress rest ∧ region.range.endAddress = region.stop := by
  have last := ahead.below region List.mem_cons_self
  have bounded : region.range.Bounded := Nat.lt_of_le_of_lt last ahead.bound
  have later := (List.pairwise_cons.mp ahead.separated.ordered).1
  rw [bounded.endAddress]
  refine ⟨⟨ahead.bound, last, ahead.separated.tail, later, ?_⟩, rfl⟩
  exact (List.forall_mem_cons.mp ahead.below).2

/-- What the search says about a range that it found. -/
structure Found (size align windowStart limit : Nat)
    (regions : List Region) (range : VirtualRange) : Prop where
  size_eq : range.size = size
  start : windowStart ≤ range.base
  within : range.stop ≤ limit
  rounded : Rounded align range.base
  avoids : ∀ region ∈ regions, Intervals.Avoids Region.base Region.stop range.base range.stop region

/-- What the search says when it has passed all regions: the gaps up to the
last window are short. -/
structure Exhausted (size align windowStart limit : Nat)
    (regions : List Region) (last : Nat) : Prop where
  start : windowStart ≤ last
  within : last ≤ limit
  passed : ∀ region ∈ regions, region.stop ≤ last
  gaps : ∀ lower upper, windowStart ≤ lower →
    (∀ region ∈ regions, Intervals.Avoids Region.base Region.stop lower upper region) →
    last ≤ lower ∨ upper < lower + (size + align)

theorem searchWindows_spec (pos : 0 < align) (ahead : Ahead limit windowStart regions) :
    match searchWindows size align regions windowStart with
    | .inl range => Found size align windowStart limit regions range
    | .inr last => Exhausted size align windowStart limit regions last := by
  induction regions generalizing windowStart with
  | nil => exact ⟨Nat.le_refl _, ahead.start, by simp, fun _ _ start _ => .inl start⟩
  | cons region rest ih =>
    obtain ⟨aheadNext, endEq⟩ := ahead.next
    have nonempty := ahead.separated.nonempty region List.mem_cons_self
    have above := ahead.above region List.mem_cons_self
    have below := ahead.below region List.mem_cons_self
    have bound := ahead.bound
    have behind : region.base < windowStart + (size + align) →
        match searchWindows size align rest region.range.endAddress with
        | .inl range => Found size align windowStart limit (region :: rest) range
        | .inr last => Exhausted size align windowStart limit (region :: rest) last := by
      intro short
      have next := ih aheadNext
      cases search : searchWindows size align rest region.range.endAddress with
      | inl range =>
        rw [search] at next
        have start := next.start
        refine ⟨next.size_eq, by omega, next.within, next.rounded, ?_⟩
        exact List.forall_mem_cons.mpr ⟨.inl (by omega), next.avoids⟩
      | inr last =>
        rw [search] at next
        have start := next.start
        refine ⟨by omega, next.within, List.forall_mem_cons.mpr ⟨by omega, next.passed⟩, ?_⟩
        intro lower upper order avoids
        rcases avoids region List.mem_cons_self with after | before
        · exact next.gaps lower upper (by omega) (List.forall_mem_cons.mp avoids).2
        · exact .inr (by omega)
    rw [searchWindows]
    by_cases same : windowStart = region.base
    · rw [if_pos same]
      exact behind (by omega)
    · have stopEq := window_stop above (by omega)
      rw [if_neg same]
      dsimp only
      cases allocated : allocateFromWindow size align
          ⟨windowStart, addressDifference region.base windowStart⟩ with
      | some range =>
        obtain ⟨sizeEq, start, stop, rounded⟩ := allocateFromWindow_some pos (by omega) allocated
        rw [stopEq] at stop
        refine ⟨sizeEq, start, by omega, rounded, List.forall_mem_cons.mpr ⟨.inr stop, ?_⟩⟩
        intro other member
        have order := (List.pairwise_cons.mp ahead.separated.ordered).1 other member
        exact .inr (by omega)
      | none =>
        have short := allocateFromWindow_none allocated
        rw [stopEq] at short
        exact behind short

end

section

variable {tree : RegionTree} {size align : Nat}

theorem WellPlaced.ahead (placed : WellPlaced tree) :
    Ahead tree.totalRange.stop tree.totalRange.base tree.regions :=
  ⟨placed.bounded, Nat.le_add_right _ _, placed.separated,
    fun region member => (placed.inside region member).1,
    fun region member => (placed.inside region member).2⟩

/-- A range of the requested size in which nothing is placed. -/
structure Available (tree : RegionTree) (size : Nat) (range : VirtualRange) : Prop where
  size_eq : range.size = size
  free : tree.Free range.base range.stop

/-- The outcome of a search without randomization. -/
inductive AnywhereOutcome (tree : RegionTree) (size align : Nat) :
    ErrorOr VirtualRange → Prop where
  | empty : size = 0 → AnywhereOutcome tree size align (.error .EINVAL)
  | overflow : 2 ^ 64 ≤ size + align → AnywhereOutcome tree size align (.error .EOVERFLOW)
  | full : (∀ lower upper, tree.Free lower upper → upper < lower + (size + align)) →
      AnywhereOutcome tree size align (.error .ENOMEM)
  | found (range : VirtualRange) : 0 < size →
      tree.Available size range → Rounded align range.base →
      AnywhereOutcome tree size align (.ok range)

section

variable (placed : WellPlaced tree)

include placed

theorem WellPlaced.searchLastWindow (pos : 0 < align)
    (exhausted : Exhausted size align tree.totalRange.base tree.totalRange.stop tree.regions last) :
    tree.totalRange.contains ⟨last, addressDifference tree.totalRange.endAddress last⟩ = true ∧
      (∀ range, allocateFromWindow size align
          ⟨last, addressDifference tree.totalRange.endAddress last⟩ = some range →
        tree.Available size range ∧ Rounded align range.base) ∧
      (allocateFromWindow size align ⟨last, addressDifference tree.totalRange.endAddress last⟩ =
            none → ∀ lower upper, tree.Free lower upper → upper < lower + (size + align)) := by
  have bound : tree.totalRange.stop < 2 ^ 64 := placed.bounded
  have start := exhausted.start
  have stopEq := window_stop exhausted.within bound
  rw [placed.bounded.endAddress]
  refine ⟨?_, ?_, ?_⟩
  · have word : last < 2 ^ 64 := Nat.lt_of_le_of_lt exhausted.within bound
    have small : addressDifference tree.totalRange.stop last < 2 ^ 64 :=
      Nat.mod_lt _ (Nat.two_pow_pos 64)
    apply (contains_iff placed.bounded word small).mpr
    rw [stopEq]
    exact ⟨start, Nat.le_refl _⟩
  · intro range allocated
    obtain ⟨sizeEq, above, below, rounded⟩ := allocateFromWindow_some pos (by omega) allocated
    rw [stopEq] at below
    change last ≤ range.base at above
    refine ⟨⟨sizeEq, ⟨by omega, below, ?_⟩⟩, rounded⟩
    intro region member
    have passed := exhausted.passed region member
    exact .inl (by omega)
  · intro failed lower upper free
    have short := allocateFromWindow_none failed
    rw [stopEq] at short
    change tree.totalRange.stop < last + (size + align) at short
    have below := free.below
    rcases exhausted.gaps lower upper free.above free.avoids with
      behind | gap
    · omega
    · exact gap

theorem WellPlaced.allocateRangeAnywhere (sizePages : size % pageSize = 0)
    (alignmentPages : align % pageSize = 0) (pos : 0 < align) :
    ∃ result, tree.allocateRangeAnywhere size align = some result ∧
      AnywhereOutcome tree size align result := by
  unfold RegionTree.allocateRangeAnywhere
  split
  next empty => exact ⟨_, rfl, .empty empty⟩
  next nonzero =>
    simp only [sizePages, alignmentPages, beq_self_eq_true, verify_true, Option.pure_def, some_bind]
    split
    next large => exact ⟨_, rfl, .overflow large⟩
    · have searched := @searchWindows_spec size _ _ _ _ pos placed.ahead
      split
      next range search =>
        rw [search] at searched
        exact ⟨_, rfl, .found range (by omega)
          ⟨searched.size_eq, searched.start, searched.within, searched.avoids⟩
          searched.rounded⟩
      next last search =>
        rw [search] at searched
        obtain ⟨contained, success, failure⟩ := placed.searchLastWindow pos searched
        rw [if_pos contained]
        split
        next range allocated =>
          obtain ⟨available, rounded⟩ := success range allocated
          exact ⟨_, rfl, .found range (by omega) available rounded⟩
        next failed => exact ⟨_, rfl, .full (failure failed)⟩

/-- The neighbour that the code looks at decides whether a range is free. -/
theorem WellPlaced.free_iff_neighbour {base : Nat} (pos : 0 < size)
    (above : tree.totalRange.base ≤ base) (below : base + size ≤ tree.totalRange.stop) :
    tree.Free base (base + size) ↔
      ∀ region, tree.findLargestNotAbove (offsetAddress base (size - 1)) = some region →
      region.range.intersects ⟨base, size⟩ = false := by
  have bound : tree.totalRange.stop < 2 ^ 64 := placed.bounded
  have rangeBounded : Bounded ⟨base, size⟩ := by
    change base + size < 2 ^ 64
    omega
  have lastPoint : offsetAddress base (size - 1) = base + (size - 1) := Nat.mod_eq_of_lt (by omega)
  have meets : ∀ region ∈ tree.regions, region.range.intersects ⟨base, size⟩ = false ↔
        Intervals.Avoids Region.base Region.stop base (base + size) region := by
    intro region member
    have iff := intersects_iff (placed.regionBounded member) rangeBounded
    rw [← Bool.not_eq_true, iff]
    change ¬ (region.base < base + size ∧ base < region.stop) ↔
      region.stop ≤ base ∨ base + size ≤ region.base
    omega
  rw [lastPoint]
  constructor
  · intro free region found
    have member := (placed.separated.largestNotAbove_eq_some found).1
    exact (meets region member).mpr (free.avoids region member)
  · intro neighbour
    refine ⟨above, below, ?_⟩
    intro region member
    cases found : tree.findLargestNotAbove (base + (size - 1)) with
    | none =>
      have beyond := Intervals.largestNotAbove_eq_none.mp found region member
      exact .inr (by omega)
    | some nearest =>
      obtain ⟨nearestMember, start, others⟩ := placed.separated.largestNotAbove_eq_some found
      have nearestAvoids := (meets nearest nearestMember).mp (neighbour nearest found)
      have nearestNonempty := placed.separated.nonempty nearest nearestMember
      rcases others region member with rfl | before | beyond
      · exact nearestAvoids
      · unfold Intervals.Avoids at nearestAvoids
        exact .inl (by omega)
      · exact .inr (by omega)

theorem WellPlaced.allocateRangeSpecific {base : Nat} (pos : 0 < size)
    (basePages : base % pageSize = 0) (sizePages : size % pageSize = 0)
    (word : base < 2 ^ 64) (small : size < 2 ^ 64) :
    (tree.Free base (base + size) ∧
      tree.allocateRangeSpecific base size = some (.ok ⟨base, size⟩)) ∨
    (¬ tree.Free base (base + size) ∧
      tree.allocateRangeSpecific base size = some (.error .ENOMEM)) := by
  have containsIff : tree.totalRange.contains ⟨base, size⟩ = true ↔
      tree.totalRange.base ≤ base ∧ base + size ≤ tree.totalRange.stop :=
    contains_iff placed.bounded word small
  unfold RegionTree.allocateRangeSpecific
  rw [if_neg (by omega)]
  simp only [basePages, sizePages, beq_self_eq_true, verify_true, Option.pure_def, some_bind]
  split
  next contained =>
    obtain ⟨above, below⟩ := containsIff.mp contained
    have freeIff := placed.free_iff_neighbour pos above below
    split
    next missing =>
      refine .inl ⟨freeIff.mpr ?_, rfl⟩
      intro region found
      rw [missing] at found
      cases found
    next region found =>
      split
      next meets =>
        refine .inr ⟨?_, rfl⟩
        intro free
        have apart := freeIff.mp free region found
        rw [meets] at apart
        cases apart
      next apart =>
        refine .inl ⟨freeIff.mpr ?_, rfl⟩
        intro other otherFound
        rw [found] at otherFound
        cases otherFound
        exact eq_false_of_ne_true apart
  next outside =>
    refine .inr ⟨?_, rfl⟩
    intro free
    exact outside (containsIff.mpr ⟨free.above, free.below⟩)

end

theorem allocateRangeSpecific_checked {base : Nat}
    (success : tree.allocateRangeSpecific base size = some (.ok range)) :
    0 < size ∧ base % pageSize = 0 ∧ size % pageSize = 0 ∧ range = ⟨base, size⟩ := by
  unfold RegionTree.allocateRangeSpecific at success
  split at success
  · cases success
  obtain ⟨_, basePages, rest⟩ := Option.bind_eq_some_iff.mp success
  obtain ⟨_, sizePages, checked⟩ := Option.bind_eq_some_iff.mp rest
  refine ⟨by omega, by simpa [verify] using basePages, by simpa [verify] using sizePages, ?_⟩
  dsimp only at checked
  split at checked
  · split at checked
    · cases checked
      rfl
    · split at checked
      · cases checked
      · cases checked
        rfl
  · cases checked

/-- A range that can be given to a region. -/
structure Placeable (tree : RegionTree) (size : Nat) (range : VirtualRange) :
    Prop extends Available tree size range where
  nonempty : 0 < size
  pages : range.PageAligned

theorem WellPlaced.allocateRangeSpecific_ok {base : Nat} (placed : WellPlaced tree)
    (word : base < 2 ^ 64) (small : size < 2 ^ 64)
    (success : tree.allocateRangeSpecific base size = some (.ok range)) :
    tree.Placeable size range ∧ range.base = base := by
  obtain ⟨pos, basePages, sizePages, rfl⟩ := allocateRangeSpecific_checked success
  rcases placed.allocateRangeSpecific pos basePages sizePages word
    small with ⟨free, result⟩ | ⟨_, result⟩
  · exact ⟨⟨⟨rfl, free⟩, pos, basePages, sizePages⟩, rfl⟩
  · rw [result] at success
    cases success

theorem tryRandomAddresses_cases
    (success : tree.tryRandomAddresses size align random attempts = some (.ok range)) :
    (∃ base, base < 2 ^ 64 ∧ tree.allocateRangeSpecific base size = some (.ok range)) ∨
      tree.allocateRangeAnywhere size align = some (.ok range) := by
  induction attempts with
  | zero => exact .inr success
  | succ attempts ih =>
    obtain ⟨_, _, tried⟩ := Option.bind_eq_some_iff.mp success
    dsimp only at tried
    split at tried
    · obtain ⟨result, attempt, rest⟩ := Option.bind_eq_some_iff.mp tried
      cases result with
      | ok chosen =>
        cases rest
        exact .inl ⟨_, BitVec.isLt _, attempt⟩
      | error _ => exact ih rest
    · exact ih tried

theorem allocateRangeRandomized_cases
    (success : tree.allocateRangeRandomized size align random = some (.ok range)) :
    (∃ base, base < 2 ^ 64 ∧ tree.allocateRangeSpecific base size = some (.ok range)) ∨
      tree.allocateRangeAnywhere size align = some (.ok range) := by
  unfold allocateRangeRandomized at success
  split at success
  · cases success
  · obtain ⟨_, _, pages⟩ := Option.bind_eq_some_iff.mp success
    obtain ⟨_, _, tried⟩ := Option.bind_eq_some_iff.mp pages
    exact tryRandomAddresses_cases tried

section

variable (placed : WellPlaced tree)

include placed

theorem WellPlaced.allocateRangeAnywhere_ok (sizePages : size % pageSize = 0)
    (alignmentPages : align % pageSize = 0) (pos : 0 < align)
    (success : tree.allocateRangeAnywhere size align = some (.ok range)) :
    tree.Placeable size range := by
  obtain ⟨result, resultEq, outcome⟩ := placed.allocateRangeAnywhere sizePages alignmentPages pos
  rw [resultEq] at success
  cases success
  cases outcome with
  | found _ nonempty available rounded =>
    obtain ⟨value, _, baseEq⟩ := rounded
    refine ⟨available, nonempty, ?_, ?_⟩
    · rw [baseEq]
      have pages : 2 ^ 12 ∣ align := Nat.dvd_of_mod_eq_zero alignmentPages
      exact Nat.mod_eq_zero_of_dvd (dvd_roundUpToPowerOfTwo_of_dvd (by decide) pages value)
    · rw [available.size_eq]
      exact sizePages

theorem WellPlaced.insertAt (placeable : tree.Placeable size range) :
    WellPlaced (tree.insertAt region range) := by
  have free := placeable.free
  have nonempty : range.base < range.stop := by
    have pos := placeable.nonempty
    rw [← placeable.size_eq] at pos
    exact Nat.lt_add_of_pos_right pos
  refine ⟨placed.bounded, placed.separated.insert nonempty free.avoids, ?_, ?_⟩
  · intro other member
    rcases Intervals.mem_insert.mp member with rfl | old
    · exact ⟨free.above, free.below⟩
    · exact placed.inside other old
  · intro other member
    rcases Intervals.mem_insert.mp member with rfl | old
    · exact placeable.pages
    · exact placed.aligned other old

theorem WellPlaced.remove (region : Region) : WellPlaced (tree.remove region).1 :=
  ⟨placed.bounded, placed.separated.remove _,
    fun other member => placed.inside other (List.mem_of_mem_eraseP member),
    fun other member => placed.aligned other (List.mem_of_mem_eraseP member)⟩

end

end

/-- A successful placement, or a removal.  Sizes and addresses are words, and
the alignment is not zero.  A call that fails leaves the tree as it is. -/
inductive Step (tree : RegionTree) : RegionTree → Prop where
  | placeAnywhere {next : RegionTree} (region : Region)
      (randomize : RandomizeVirtualAddress) (random : Nat → Nat)
      (size align : Nat) :
      size < 2 ^ 64 → size % pageSize = 0 → align % pageSize = 0 →
      0 < align →
      tree.placeAnywhere region randomize random size align = some (.ok next) →
      Step tree next
  | placeSpecifically {next : RegionTree} (region : Region) (range : VirtualRange) :
      range.base < 2 ^ 64 → range.size < 2 ^ 64 →
      tree.placeSpecifically region range = some (.ok next) →
      Step tree next
  | remove (region : Region) : Step tree (tree.remove region).1

section

variable {tree next : RegionTree}

theorem map_insertAt_ok {result : ErrorOr VirtualRange}
    (success : result.map (tree.insertAt region) = .ok next) :
    ∃ range, result = .ok range ∧ next = tree.insertAt region range := by
  cases result with
  | error code => cases success
  | ok range =>
    cases success
    exact ⟨range, rfl, rfl⟩

theorem WellPlaced.placeAnywhere {region : Region} {randomize : RandomizeVirtualAddress}
    {size : Nat} (placed : WellPlaced tree) (small : size < 2 ^ 64)
    (sizePages : size % pageSize = 0) (alignmentPages : align % pageSize = 0) (pos : 0 < align)
    (success : tree.placeAnywhere region randomize random size align = some (.ok next)) :
    WellPlaced next ∧ next.totalRange = tree.totalRange := by
  obtain ⟨result, allocated, rest⟩ := Option.bind_eq_some_iff.mp success
  obtain ⟨range, rfl, rfl⟩ := map_insertAt_ok (Option.some.inj rest)
  have placeable : tree.Placeable size range := by
    cases randomize with
    | no =>
      exact placed.allocateRangeAnywhere_ok sizePages alignmentPages pos allocated
    | yes =>
      rcases allocateRangeRandomized_cases allocated with ⟨base, word, specific⟩ | anywhere
      · exact (placed.allocateRangeSpecific_ok word small specific).1
      · exact placed.allocateRangeAnywhere_ok sizePages alignmentPages pos anywhere
  exact ⟨placed.insertAt placeable, rfl⟩

theorem WellPlaced.placeSpecifically {region : Region} {range : VirtualRange}
    (placed : WellPlaced tree) (word : range.base < 2 ^ 64) (small : range.size < 2 ^ 64)
    (success : tree.placeSpecifically region range = some (.ok next)) :
    WellPlaced next ∧ next.totalRange = tree.totalRange := by
  obtain ⟨result, allocated, rest⟩ := Option.bind_eq_some_iff.mp success
  obtain ⟨chosen, rfl, rfl⟩ := map_insertAt_ok (Option.some.inj rest)
  have placeable := (placed.allocateRangeSpecific_ok word small allocated).1
  exact ⟨placed.insertAt placeable, rfl⟩

theorem WellPlaced.step (placed : WellPlaced tree) (step : Step tree next) :
    WellPlaced next ∧ next.totalRange = tree.totalRange := by
  cases step with
  | placeAnywhere region randomize random size align small sizePages
      alignmentPages pos success =>
    exact placed.placeAnywhere small sizePages alignmentPages pos success
  | placeSpecifically region range word small success =>
    exact placed.placeSpecifically word small success
  | remove region => exact ⟨placed.remove region, rfl⟩

theorem WellPlaced.initial (bounded : total.Bounded) : WellPlaced ⟨total, []⟩ :=
  ⟨bounded, Intervals.separated_nil, by simp, by simp⟩

theorem WellPlaced.run (bounded : total.Bounded)
    (run : Relation.ReflTransGen Step ⟨total, []⟩ tree) :
    WellPlaced tree ∧ tree.totalRange = total := by
  induction run with
  | refl => exact ⟨WellPlaced.initial bounded, rfl⟩
  | tail _ step ih =>
    obtain ⟨placed, same⟩ := ih.1.step step
    exact ⟨placed, same.trans ih.2⟩

end

end RegionTree

end MixUpOS.Kernel.Memory
