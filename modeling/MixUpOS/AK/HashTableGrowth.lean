import MixUpOS.AK.HashTableRemove

/-!
# Growth of a hash table

`try_rehash` writes the entries to new buckets, in the order of the iteration.
Two things can go wrong in its arithmetic.  The size in bytes can wrap around,
and then there are fewer buckets than asked for.  There can be more than
`2 ^ 32` buckets, and then a lookup, which counts in an `unsigned`, does not
reach all of them.  `Fits` excludes both.
-/

namespace MixUpOS.AK

open Library List

/-- Buckets are not empty, and `kmalloc_good_size` does not round down. -/
structure HashTraits.Allocates {T : Type} (traits : HashTraits T) : Prop where
  positive : 0 < traits.bucketSize
  goodSize_ge : ∀ bytes < 2 ^ 63, bytes ≤ traits.goodSize bytes

namespace HashTable

open RobinHood LinkedSequences DistinctLists

variable {T : Type} {traits : HashTraits T} {table : HashTable T}
variable {slots : Nat → Option T} {list : List T} {entry : T}

theorem valuesOf_eq_some (reads : pointers.map (fun pointer => (table.buckets pointer).slot) =
      list.map some) : table.valuesOf pointers = some list := by
  induction pointers generalizing list with
  | nil =>
    cases list with
    | nil => rfl
    | cons first rest => cases reads
  | cons pointer others ih =>
    cases list with
    | nil => cases reads
    | cons first rest =>
      obtain ⟨atFirst, atRest⟩ := cons.inj reads
      have remaining := ih atRest
      rw [valuesOf] at remaining
      simp [valuesOf, atFirst, remaining]

private theorem slots_of_used (indices : List Nat)
    (holds : ∀ index ∈ indices, Holds traits table.capacity index
      (table.bucket index) (slots index)) :
    (indices.filter fun index => !(table.bucket index).isFree).map
        (fun index => (table.bucket index).slot) = (indices.filterMap slots).map some := by
  induction indices with
  | nil => rfl
  | cons index rest ih =>
    have here := holds index mem_cons_self
    have remaining := ih (forall_mem_cons.mp holds).2
    cases found : slots index with
    | none =>
      rw [found] at here
      rw [filter_cons_of_neg (by simp [here.isFree]), filterMap_cons_none found]
      exact remaining
    | some entry =>
      rw [found] at here
      rw [filter_cons_of_pos (by simp [here.isFree]), filterMap_cons_some found, map_cons, map_cons,
        here.slot, remaining]

theorem Represents.length_le (models : Represents traits table slots list)
    {order : List BucketPointer}
    (entries : order.map (fun pointer => (table.buckets pointer).slot) = list.map some)
    (room : table.size ≠ 0 → table.size < table.capacity) : order.length ≤ table.capacity := by
  have length := congrArg length entries
  rw [length_map, length_map, ← models.size] at length
  by_cases isEmpty : table.size = 0 <;> omega

/-- An iteration visits the entries that the table represents, in their order
if the table is ordered. -/
theorem Represents.values (models : Represents traits table slots list)
    (room : table.size ≠ 0 → table.size < table.capacity) :
    ∃ entries, table.values traits = some entries ∧ entries.Perm list ∧
      (traits.isOrdered = true → entries = list) := by
  cases isOrdered : traits.isOrdered with
  | true =>
    obtain ⟨order, arranged⟩ := models.ordered isOrdered
    have visited := arranged.listed.walk_next (models.length_le arranged.entries room)
    have read := valuesOf_eq_some arranged.entries
    simp [HashTable.values, iteration, isOrdered, visited, read]
  | false =>
    have reads := slots_of_used (range table.capacity) fun index member =>
        models.holds index (mem_range.mp member)
    have read : table.valuesOf (((range table.capacity).filter fun index =>
          !(table.bucket index).isFree).map .index) =
        some ((range table.capacity).filterMap slots) := by
      apply valuesOf_eq_some
      rw [map_map, ← reads]
      rfl
    refine ⟨(range table.capacity).filterMap slots, ?_, ?_, ?_⟩
    · simp [HashTable.values, iteration, isOrdered, read]
    · exact Multiset.coe_eq_coe.mp models.contents
    · intro never
      cases never

/-- For an unordered table the order of the list says nothing. -/
theorem Represents.perm (lawful : traits.Lawful) (models : Represents traits table slots list)
    (permutation : list.Perm other) (exact : traits.isOrdered = true → list = other) :
    Represents traits table slots other where
  holds := models.holds
  probing := models.probing
  contents := models.contents.trans (Multiset.coe_eq_coe.mpr permutation)
  size := models.size.trans permutation.length_eq
  distinct := models.distinct.perm lawful.equivalent permutation
  ordered := by
    intro isOrdered
    rw [← exact isOrdered]
    exact models.ordered isOrdered

theorem represents_allocated (newCapacity : Nat) :
    Represents traits (allocateBuckets 0 newCapacity : HashTable T) (fun _ => none) [] where
  holds := by
    intro index _
    rfl
  probing := probing_of_free fun _ _ => rfl
  contents := by
    rw [contents_of_free fun _ _ => rfl]
    rfl
  size := rfl
  distinct := Pairwise.nil
  ordered := by
    intro _
    refine ⟨[], Listed.nil rfl rfl, ?_, rfl, fun _ _ => ⟨rfl, rfl⟩⟩
    intro pointer
    cases pointer with
    | index index | bucketToMove => simp [Occupied]

theorem writeAll_represents {entries : List T} (lawful : traits.Lawful)
    (models : Represents traits table slots list)
    (distinct : Distinct traits.equals (list ++ entries))
    (room : (list ++ entries).length < table.capacity) :
    ∃ later laterSlots, writeAll traits entries table = some later ∧
      Represents traits later laterSlots (list ++ entries) ∧ later.SameArray table := by
  induction entries generalizing table slots list with
  | nil =>
    refine ⟨table, slots, rfl, ?_, rfl, rfl⟩
    rw [append_nil]
    exact models
  | cons value rest ih =>
    have absent : ∀ entry ∈ list, traits.equals entry value = false := by
      intro entry member
      exact (pairwise_append.mp distinct).2.2 entry member value mem_cons_self
    have size := models.size
    rw [length_append] at room
    obtain ⟨written, writtenSlots, result, writtenModels, sized⟩ :=
      writeValue_represents models lawful (by omega) value .keep
    rw [setList_of_absent absent] at writtenModels
    have assoc : list ++ value :: rest = (list ++ [value]) ++ rest := by simp
    rw [assoc] at distinct
    obtain ⟨later, laterSlots, remaining, laterModels, same⟩ :=
      ih writtenModels distinct (by
          rw [sized.2]
          simp
          omega)
    refine ⟨later, laterSlots, ?_, ?_, same.trans sized⟩
    · simp [writeAll, result, remaining]
    · rw [assoc]
      exact laterModels

/-- What holds of a table between operations. -/
structure Valid (traits : HashTraits T) (table : HashTable T) (list : List T) : Prop where
  represented : ∃ slots, Represents traits table slots list
  room : table.size ≠ 0 → table.size < table.capacity
  free : table.capacity ≠ 0 → table.size < table.capacity
  representable : table.capacity ≤ 2 ^ 32
  unallocated : table.hasBuckets = false → table.capacity = 0

/-- The memory for that many buckets can be asked for, and if it is granted,
there are no more buckets than an `unsigned` can count. -/
def Fits (traits : HashTraits T) (table : HashTable T) (newCapacity : Nat)
    (granted : Bool) : Prop :=
  traits.bucketSize * max newCapacity (table.capacity + 8) < 2 ^ 63 ∧ (granted = true →
      traits.goodSize (traits.bucketSize * max newCapacity (table.capacity + 8)) /
        traits.bucketSize ≤ 2 ^ 32)

theorem valid_empty : Valid traits (empty : HashTable T) [] where
  represented := by
    obtain ⟨holds, probing, contents, size, distinct, ordered⟩ := @represents_allocated T traits 0
    exact ⟨_, holds, probing, contents, size, distinct, fun isOrdered =>
      (ordered isOrdered).imp fun _ ⟨listed, members, entries, linkless⟩ =>
        ⟨listed, members, entries, linkless⟩⟩
  room := fun notEmpty => absurd rfl notEmpty
  free := fun allocated => absurd rfl allocated
  representable := Nat.zero_le _
  unallocated := fun _ => rfl

theorem Valid.size_le (valid : Valid traits table list) : table.size ≤ table.capacity := by
  by_cases isEmpty : table.size = 0
  · omega
  · exact Nat.le_of_lt (valid.room isEmpty)

theorem Valid.change (valid : Valid traits table list)
    (models : Represents traits later laterSlots laterList) (same : later.SameArray table)
    (room : laterList.length < table.capacity ∨
      laterList.length ≤ list.length) : Valid traits later laterList := by
  obtain ⟨slots, before⟩ := valid.represented
  have size := before.size
  have laterSize := models.size
  refine ⟨⟨laterSlots, models⟩, ?_, ?_, ?_, ?_⟩
  · intro notEmpty
    rw [same.2]
    rcases room with bound | shorter
    · omega
    · have bound := valid.room (by omega)
      omega
  · intro allocated
    rw [same.2] at allocated ⊢
    have bound := valid.free allocated
    omega
  · rw [same.2]
    exact valid.representable
  · intro none
    rw [same.2]
    exact valid.unallocated (same.1 ▸ none)

theorem rehashedCapacity_ge (allocates : traits.Allocates) (valid : Valid traits table list)
    (fits : Fits traits table newCapacity granted) :
    rehashedCapacity traits table newCapacity = traits.goodSize
            (traits.bucketSize * max newCapacity (table.capacity + 8)) / traits.bucketSize ∧
      max newCapacity (table.capacity + 8) ≤ rehashedCapacity traits table newCapacity := by
  have small : sizeT (table.capacity + 8) = table.capacity + 8 := by
    have bound := valid.representable
    rw [sizeT]
    omega
  have noWrap : sizeInBytes traits (max newCapacity (table.capacity + 8)) =
      traits.bucketSize * max newCapacity (table.capacity + 8) := by
    have bound := fits.1
    rw [sizeInBytes, sizeT]
    omega
  have settled : rehashedCapacity traits table newCapacity = traits.goodSize
          (traits.bucketSize * max newCapacity (table.capacity + 8)) /
        traits.bucketSize := by
    rw [rehashedCapacity, small, noWrap]
  refine ⟨settled, ?_⟩
  rw [settled, Nat.le_div_iff_mul_le allocates.positive, Nat.mul_comm]
  exact allocates.goodSize_ge _ fits.1

section

variable (lawful : traits.Lawful)

include lawful

section

variable (allocates : traits.Allocates) (valid : Valid traits table list)

include allocates valid

theorem tryRehash_valid (fits : Fits traits table newCapacity granted) :
    ∃ result later, table.tryRehash traits newCapacity granted = some (result, later) ∧
        Valid traits later list ∧ (granted = false ∧ result = .error .ENOMEM ∧ later = table ∨
          result = .ok () ∧ table.capacity + 8 ≤ later.capacity) := by
  obtain ⟨settled, enough⟩ := rehashedCapacity_ge allocates valid fits
  have sizeBound := valid.size_le
  have sizeFits : table.size ≤ rehashedCapacity traits table newCapacity := by omega
  obtain ⟨slots, models⟩ := valid.represented
  have size := models.size
  cases granted with
  | false =>
    refine ⟨.error .ENOMEM, table, ?_, valid, .inl ⟨rfl, rfl, rfl⟩⟩
    simp [tryRehash, sizeFits]
  | true =>
    have bounded := fits.2 rfl
    rw [← settled] at bounded
    cases allocated : table.hasBuckets with
    | false =>
      have noCapacity := valid.unallocated allocated
      have noSize : table.size = 0 := by omega
      have noEntries : list = [] := length_eq_zero_iff.mp (by omega)
      refine ⟨.ok (), allocateBuckets 0 (rehashedCapacity traits table newCapacity), ?_, ?_,
        .inr ⟨rfl, ?_⟩⟩
      · simp [tryRehash, allocated, noSize]
      · rw [noEntries]
        refine ⟨⟨_, represents_allocated _⟩, ?_, ?_, bounded, ?_⟩
        · intro notEmpty
          exact absurd rfl notEmpty
        · intro _
          change 0 < rehashedCapacity traits table newCapacity
          omega
        · intro never
          cases never
      · change table.capacity + 8 ≤ rehashedCapacity traits table newCapacity
        omega
    | true =>
      obtain ⟨entries, read, permutation, inOrder⟩ := models.values valid.room
      have distinct : Distinct traits.equals ([] ++ entries) :=
        models.distinct.perm lawful.equivalent permutation.symm
      have length := permutation.length_eq
      obtain ⟨later, laterSlots, written, laterModels, same⟩ :=
        writeAll_represents lawful (represents_allocated
            (rehashedCapacity traits table newCapacity)) distinct (by
              change entries.length < rehashedCapacity traits table newCapacity
              omega)
      have restored := laterModels.perm lawful permutation inOrder
      have capacity : later.capacity = rehashedCapacity traits table newCapacity := same.2
      have laterSize := restored.size
      refine ⟨.ok (), later, ?_, ?_, .inr ⟨rfl, by omega⟩⟩
      · simp [tryRehash, sizeFits, allocated, read, written]
      refine ⟨⟨laterSlots, restored⟩, ?_, ?_, ?_, ?_⟩
      · intro _
        omega
      · intro _
        omega
      · omega
      · intro never
        rw [same.1] at never
        cases never

theorem growIfNeeded_valid (fits : table.shouldGrow = true →
      Fits traits table (sizeT (table.capacity * 160) / 100) granted) :
    ∃ result later, growIfNeeded traits table granted = some (result, later) ∧
        Valid traits later list ∧ (granted = false ∧ result = .error .ENOMEM ∧ later = table ∨
          result = .ok () ∧ list.length + 1 < later.capacity) := by
  obtain ⟨slots, models⟩ := valid.represented
  have size := models.size
  have sizeBound := valid.size_le
  have bound := valid.representable
  cases grows : table.shouldGrow with
  | true =>
    obtain ⟨result, later, rehashed, laterValid, outcome⟩ :=
      tryRehash_valid lawful allocates valid (fits grows)
    refine ⟨result, later, ?_, laterValid, ?_⟩
    · simp [growIfNeeded, grows, rehashed]
    · rcases outcome with failed | ⟨success, larger⟩
      · exact .inl failed
      · exact .inr ⟨success, by omega⟩
  | false =>
    refine ⟨.ok (), table, ?_, valid, .inr ⟨rfl, ?_⟩⟩
    · simp [growIfNeeded, grows]
    · unfold shouldGrow sizeT at grows
      have notYet := of_decide_eq_false grows
      rw [Nat.mod_eq_of_lt (by omega), Nat.mod_eq_of_lt (by omega)] at notYet
      omega

theorem trySet_valid (fits : table.shouldGrow = true →
      Fits traits table (sizeT (table.capacity * 160) / 100) granted) (value : T)
    (behavior : HashSetExistingEntryBehavior) :
    ∃ result later, table.trySet traits value behavior granted = some (result, later) ∧
        (granted = false ∧ result = .error .ENOMEM ∧ later = table ∨
          result = .ok (setList traits list value behavior).1 ∧
            Valid traits later (setList traits list value behavior).2) := by
  obtain ⟨outcome, grown, growth, grownValid, cases⟩ :=
    growIfNeeded_valid lawful allocates valid fits
  rcases cases with ⟨refused, rfl, rfl⟩ | ⟨rfl, room⟩
  · refine ⟨.error .ENOMEM, grown, ?_, .inl ⟨refused, rfl, rfl⟩⟩
    simp [trySet, growth]
  obtain ⟨slots, models⟩ := grownValid.represented
  have size := models.size
  obtain ⟨later, laterSlots, written, laterModels, same⟩ :=
    writeValue_represents models lawful (by omega) value behavior
  have length : (setList traits list value behavior).2.length ≤ list.length + 1 := by
    unfold setList
    split_ifs
    · cases behavior with
      | replace => simp [replaced]
      | keep => simp
    · simp
  refine ⟨.ok (setList traits list value behavior).1, later, ?_,
    .inr ⟨rfl, grownValid.change laterModels same (.inl (by omega))⟩⟩
  simp [trySet, growth, written]

end

theorem remove_valid (valid : Valid traits table list) (value : T) :
    ∃ later, table.remove traits value =
          some (list.any fun entry => traits.equals entry value, later) ∧
        Valid traits later (without traits.equals list value) := by
  obtain ⟨slots, models⟩ := valid.represented
  obtain ⟨later, laterSlots, removed, laterModels, same⟩ :=
    remove_represents lawful models valid.representable valid.room value
  exact ⟨later, removed, valid.change laterModels same (.inr (length_filter_le _ _))⟩

theorem removeAllMatching_valid (valid : Valid traits table list) (predicate : T → Bool) :
    ∃ later, table.removeAllMatching traits predicate = some (list.any predicate, later) ∧
        Valid traits later (list.filter fun entry => !predicate entry) := by
  obtain ⟨slots, models⟩ := valid.represented
  obtain ⟨later, laterSlots, removed, laterModels, same⟩ :=
    @removeAllMatchingLoop_represents _ _ _ _ _ 0 lawful predicate
      (table.capacity + table.size + 1) false models valid.room (by simp) (by omega)
  exact ⟨later, by simpa [removeAllMatching] using removed,
    valid.change laterModels same (.inr (length_filter_le _ _))⟩

theorem takeEnd_valid (valid : Valid traits table list)
    (models : Represents traits table slots list)
    (arranged : Arranged table (Occupied table.capacity slots false) list order)
    (member : pointer ∈ order) (slot : (table.buckets pointer).slot = some entry) :
    ∃ later, table.takeEnd traits (some pointer) = some (entry, later) ∧
        Valid traits later (without traits.equals list entry) := by
  have used := (arranged.members pointer).mp member
  cases pointer with
  | bucketToMove => cases used
  | index index =>
    obtain ⟨bound, filled⟩ := used
    obtain ⟨other, found⟩ := Option.ne_none_iff_exists'.mp filled
    have holds := models.holds index bound
    rw [found] at holds
    have same : other = entry := by
      have here := holds.slot
      rw [bucket, slot] at here
      cases here
      rfl
    subst same
    have inList : other ∈ list := models.mem_iff.mpr ⟨index, bound, found⟩
    have notEmpty := models.size_ne_zero inList
    obtain ⟨later, laterSlots, deleted, laterModels, same, _⟩ :=
      deleteBucket_represents lawful models bound found (valid.room notEmpty)
    refine ⟨later, ?_, valid.change laterModels same (.inr (length_filter_le _ _))⟩
    simp [takeEnd, notEmpty, holds.slot, deleted]

theorem takeFirst_valid (isOrdered : traits.isOrdered = true)
    (valid : Valid traits table (entry :: list)) :
    ∃ later, table.takeFirst traits = some (entry, later) ∧ Valid traits later list := by
  obtain ⟨slots, models⟩ := valid.represented
  obtain ⟨order, arranged⟩ := models.ordered isOrdered
  cases order with
  | nil => cases arranged.entries
  | cons pointer rest =>
    have isHead : table.links.head = some pointer := arranged.listed.head
    have slot : (table.buckets pointer).slot = some entry := (cons.inj arranged.entries).1
    obtain ⟨later, taken, laterValid⟩ := takeEnd_valid lawful valid
      models arranged mem_cons_self slot
    refine ⟨later, ?_, ?_⟩
    · rw [takeFirst, isHead]
      exact taken
    have isDistinct : Distinct traits.equals ([] ++ entry :: list) := models.distinct
    rwa [← nil_append (entry :: list), isDistinct.without_middle lawful.equivalent]
      at laterValid

theorem takeLast_valid (isOrdered : traits.isOrdered = true)
    (valid : Valid traits table (list ++ [entry])) :
    ∃ later, table.takeLast traits = some (entry, later) ∧ Valid traits later list := by
  obtain ⟨slots, models⟩ := valid.represented
  obtain ⟨order, arranged⟩ := models.ordered isOrdered
  rcases eq_nil_or_concat order with rfl | ⟨rest, pointer, rfl⟩
  · have never := congrArg length arranged.entries
    simp at never
  have isTail : table.links.tail = some pointer := by
    rw [arranged.listed.tail]
    simp
  have slot : (table.buckets pointer).slot = some entry := by
    have entries := arranged.entries
    rw [concat_eq_append, map_append, map_append] at entries
    have last := (append_inj' entries rfl).2
    exact (cons.inj last).1
  obtain ⟨later, taken, laterValid⟩ := takeEnd_valid lawful valid
    models arranged (by simp) slot
  refine ⟨later, ?_, ?_⟩
  · rw [takeLast, isTail]
    exact taken
  rwa [models.distinct.without_middle lawful.equivalent, append_nil] at laterValid

end

end HashTable

end MixUpOS.AK
