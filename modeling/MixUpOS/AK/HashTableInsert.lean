import MixUpOS.AK.HashTableInvariant

/-!
# Insertion into a hash table

`write_value` walks from the ideal index of the value to an equal entry, a
free bucket or a richer one.  In the last case the value takes that bucket and
the entry in it is carried on.  While there is a free bucket, both loops come
to an end within one turn around the table.
-/

namespace MixUpOS.AK.HashTable

open Library Circular RobinHood DistinctLists Function

variable {T : Type} {traits : HashTraits T} {table : HashTable T}
variable {slots : Nat → Option T} {list : List T} {entry value : T}
variable {index : Nat}

theorem ne_of_free (found : slots index = some entry) (free : slots stop = none) :
    index ≠ stop := by
  rintro rfl
  rw [free] at found
  cases found

theorem idealIndex_lt {capacity : Nat} (pos : 0 < capacity)
    (entry : T) : idealIndex traits capacity entry < capacity :=
  Nat.mod_lt _ pos

theorem idealIndex_congr (lawful : traits.Lawful) {capacity : Nat}
    (equal : traits.equals first value = true) :
    idealIndex traits capacity first = idealIndex traits capacity value := by
  rw [idealIndex, idealIndex, lawful.hash_eq equal]

theorem lengthAt_congr (lawful : traits.Lawful) {capacity : Nat}
    (equal : traits.equals first value = true) (index : Nat) :
    lengthAt traits capacity first index = lengthAt traits capacity value index := by
  rw [lengthAt, lengthAt, probeLength, probeLength, idealIndex_congr lawful equal]

theorem settleBucket_sameArray (length : Nat) :
    (settleBucket traits table index length).SameArray table :=
  ⟨by simp [settleBucket], by simp [settleBucket]⟩

@[simp] theorem settleBucket_capacity (length : Nat) :
    (settleBucket traits table index length).capacity = table.capacity :=
  (settleBucket_sameArray length).2

theorem exchangeBucket_sameArray (length : Nat) :
    (exchangeBucket traits table index length).SameArray table :=
  ⟨by simp [exchangeBucket, swapBuckets, setLinks], by simp [exchangeBucket, swapBuckets, setLinks]⟩

@[simp] theorem exchangeBucket_capacity (length : Nat) :
    (exchangeBucket traits table index length).capacity = table.capacity :=
  (exchangeBucket_sameArray length).2

section

variable (inHand : InHand traits table slots list entry index)

include inHand

theorem InHand.settle (free : slots index = none) :
    Represents traits (settleBucket traits table index (lengthAt traits table.capacity entry index))
      (update slots index (some entry)) list := by
  have bound := inHand.carried.bound
  have pos : 0 < table.capacity := Nat.zero_lt_of_lt bound
  constructor <;> try simp
  · intro other otherBound
    by_cases here : other = index
    · subst here
      simp [Holds, settleBucket, bucket, inHand.hand]
    · simpa [settleBucket, bucket, here] using inHand.holds other otherBound
  · exact inHand.probing.put_free (idealIndex_lt pos) inHand.carried free
  · rw [contents_fill bound free]
    exact inHand.contents
  · simpa [settleBucket] using inHand.size
  · exact inHand.distinct
  · exact settleBucket_ordered inHand.ordered bound free

theorem InHand.exchange (found : slots index = some first)
    (richer : lengthAt traits table.capacity first index <
      lengthAt traits table.capacity entry index)
    (stopBound : stop < table.capacity) (free : slots stop = none) :
    lengthAt traits table.capacity first (next table.capacity index) =
        lengthAt traits table.capacity first index + 1 ∧
      InHand traits (exchangeBucket traits table index (lengthAt traits table.capacity entry index))
        (update slots index (some entry)) list first (next table.capacity index) := by
  have bound := inHand.carried.bound
  have pos : 0 < table.capacity := Nat.zero_lt_of_lt bound
  have here := inHand.holds index bound
  rw [found] at here
  have slot := here.slot
  obtain ⟨probing, step, carried⟩ := inHand.probing.exchange
    (idealIndex_lt pos) inHand.carried found richer stopBound free
  refine ⟨step, ?_⟩
  constructor <;> try simp
  · intro other otherBound
    by_cases same : other = index
    · subst same
      simp [Holds, exchangeBucket, bucket, swapBuckets, setLinks, inHand.hand]
    · simpa [exchangeBucket, bucket, swapBuckets, setLinks, same]
        using inHand.holds other otherBound
  · exact probing
  · exact carried
  · rw [bucket] at slot
    simpa [exchangeBucket, swapBuckets, setLinks] using slot
  · rw [contents_exchange bound found]
    exact inHand.contents
  · simpa [exchangeBucket, swapBuckets, setLinks] using inHand.size
  · exact inHand.distinct
  · exact exchangeBucket_ordered inHand.ordered bound (by simp [found])

/-- A bucket that is not richer keeps its place, and the entry in hand goes
on. -/
theorem InHand.pass (found : slots index = some first)
    (kept : lengthAt traits table.capacity entry index ≤ lengthAt traits table.capacity first index)
    (stopBound : stop < table.capacity) (free : slots stop = none) :
    lengthAt traits table.capacity entry (next table.capacity index) =
        lengthAt traits table.capacity entry index + 1 ∧
      InHand traits table slots list entry (next table.capacity index) := by
  have pos := Nat.zero_lt_of_lt inHand.carried.bound
  obtain ⟨step, carried⟩ := carried_next (idealIndex_lt pos)
    inHand.carried.bound inHand.carried.reach found kept stopBound free
  exact ⟨step, { inHand with carried := carried }⟩

end

theorem displaceLoop_represents {length : Nat}
    (inHand : InHand traits table slots list entry (next table.capacity index))
    (known : lengthAt traits table.capacity entry (next table.capacity index) = length + 1)
    (stopBound : stop < table.capacity) (free : slots stop = none)
    (enough : distance table.capacity (next table.capacity index) stop < fuel) :
    ∃ later laterSlots, displaceLoop traits fuel table index length = some later ∧
      Represents traits later laterSlots list ∧ later.SameArray table := by
  induction fuel generalizing table slots entry index length with
  | zero => cases enough
  | succ fuel ih =>
    have bound := inHand.carried.bound
    have holds := inHand.holds _ bound
    cases found : slots (next table.capacity index) with
    | none =>
      rw [found] at holds
      have isFree := holds.isFree
      have settled := inHand.settle found
      rw [known] at settled
      refine ⟨_, _, ?_, settled, settleBucket_sameArray _⟩
      simp [displaceLoop, isFree]
    | some first =>
      rw [found] at holds
      have isUsed := holds.isFree
      have target := usedBucketProbeLength_eq holds
      have apart := ne_of_free found free
      have closer := distance_of_next bound stopBound apart
      by_cases richer : lengthAt traits table.capacity first
          (next table.capacity index) < length + 1
      · obtain ⟨step, exchanged⟩ := inHand.exchange found (by omega) stopBound free
        have stillFree : update slots
            (next table.capacity index) (some entry) stop = none := by
          rw [update_of_ne apart.symm]
          exact free
        rw [known] at exchanged
        have rest := @ih (exchangeBucket traits table (next table.capacity index)
            (length + 1))
          (update slots (next table.capacity index) (some entry))
          first (next table.capacity index)
          (lengthAt traits table.capacity first (next table.capacity index))
        simp only [exchangeBucket_capacity] at rest
        obtain ⟨later, laterSlots, result, models, same⟩ :=
          rest exchanged step stopBound stillFree (by omega)
        refine ⟨later, laterSlots, ?_, models, same.trans (exchangeBucket_sameArray _)⟩
        simp only [displaceLoop, isUsed, Option.isNone_some,
          Bool.false_eq_true, if_false, target, some_bind, if_pos richer, result]
      · obtain ⟨step, passed⟩ := inHand.pass found (by omega) stopBound free
        obtain ⟨later, laterSlots, result, models, same⟩ :=
          @ih _ _ _ _ (length + 1) passed (by omega) stopBound free (by omega)
        refine ⟨later, laterSlots, ?_, models, same⟩
        simp only [displaceLoop, isUsed, Option.isNone_some,
          Bool.false_eq_true, if_false, target, some_bind, if_neg richer, result]

/-- What `write_value` does to the list of entries. -/
def setList (traits : HashTraits T) (list : List T) (value : T)
    (behavior : HashSetExistingEntryBehavior) : HashSetResult × List T :=
  if list.any fun entry => traits.equals entry value then
    match behavior with
    | .replace =>
      (.replacedExistingEntry, replaced traits.equals list value)
    | .keep => (.keptExistingEntry, list)
  else (.insertedNewEntry, list ++ [value])

theorem writeFree_sameArray (length : Nat) :
    (writeFree traits table value index length).SameArray table :=
  ⟨by simp [writeFree, writeBucket], by simp [writeFree, writeBucket]⟩

@[simp] theorem writeFree_capacity (length : Nat) :
    (writeFree traits table value index length).capacity = table.capacity :=
  (writeFree_sameArray length).2

theorem steal_sameArray (length : Nat) : (steal traits table value index length).SameArray table :=
  ⟨by simp [steal, writeBucket], by simp [steal, writeBucket]⟩

@[simp] theorem steal_capacity (length : Nat) :
    (steal traits table value index length).capacity = table.capacity :=
  (steal_sameArray length).2

theorem setList_of_absent {behavior : HashSetExistingEntryBehavior}
    (absent : ∀ entry ∈ list, traits.equals entry value = false) :
    setList traits list value behavior = (.insertedNewEntry, list ++ [value]) := by
  have none : (list.any fun entry => traits.equals entry value) = false := by simpa using absent
  simp [setList, none]

section

variable (models : Represents traits table slots list)

include models

theorem Represents.mem_iff : entry ∈ list ↔ ∃ index < table.capacity, slots index = some entry := by
  rw [← mem_contents, models.contents, Multiset.mem_coe]

theorem Represents.writeFree
    (carried : Carried table.capacity (idealIndex traits table.capacity) slots value index)
    (free : slots index = none) (absent : ∀ entry ∈ list, traits.equals entry value = false) :
    Represents traits (writeFree traits table value index
        (lengthAt traits table.capacity value index))
      (update slots index (some value)) (list ++ [value]) := by
  have bound := carried.bound
  have pos : 0 < table.capacity := Nat.zero_lt_of_lt bound
  constructor <;> try simp
  · intro other otherBound
    by_cases here : other = index
    · subst here
      simp [Holds, HashTable.writeFree, writeBucket, bucket]
    · simpa [HashTable.writeFree, writeBucket, bucket, here] using models.holds other otherBound
  · exact models.probing.put_free (idealIndex_lt pos) carried free
  · rw [contents_fill bound free, models.contents]
    exact Multiset.coe_eq_coe.mpr (List.perm_append_singleton value list).symm
  · simp [HashTable.writeFree, writeBucket, models.size]
  · exact models.distinct.concat absent
  · exact writeFree_ordered models.ordered bound free

theorem Represents.steal
    (carried : Carried table.capacity (idealIndex traits table.capacity) slots value index)
    (found : slots index = some first) (richer : lengthAt traits table.capacity first index <
      lengthAt traits table.capacity value index)
    (absent : ∀ entry ∈ list, traits.equals entry value = false)
    (stopBound : stop < table.capacity) (free : slots stop = none) :
    lengthAt traits table.capacity first (next table.capacity index) =
        lengthAt traits table.capacity first index + 1 ∧
      InHand traits (steal traits table value index (lengthAt traits table.capacity value index))
        (update slots index (some value)) (list ++ [value]) first (next table.capacity index) := by
  have bound := carried.bound
  have pos : 0 < table.capacity := Nat.zero_lt_of_lt bound
  have here := models.holds index bound
  rw [found] at here
  have slot := here.slot
  obtain ⟨probing, step, carriedOn⟩ := models.probing.exchange
    (idealIndex_lt pos) carried found richer stopBound free
  refine ⟨step, ?_⟩
  constructor <;> try simp
  · intro other otherBound
    by_cases same : other = index
    · subst same
      simp [Holds, HashTable.steal, writeBucket, bucket]
    · simpa [HashTable.steal, writeBucket, bucket, same] using models.holds other otherBound
  · exact probing
  · exact carriedOn
  · rw [bucket] at slot
    simpa [HashTable.steal, writeBucket] using slot
  · rw [contents_exchange bound found, models.contents]
    exact Multiset.coe_eq_coe.mpr (List.perm_append_singleton value list).symm
  · simp [HashTable.steal, writeBucket, models.size]
  · exact models.distinct.concat absent
  · exact steal_ordered models.ordered bound (by simp [found])

theorem Represents.assign (lawful : traits.Lawful) (bound : index < table.capacity)
    (found : slots index = some first) (equal : traits.equals first value = true) :
    Represents traits (table.setBucket (.index index)
        { table.bucket index with slot := some value })
      (update slots index (some value))
      (replaced traits.equals list value) := by
  have inList : first ∈ list := models.mem_iff.mpr ⟨index, bound, found⟩
  have same : idealIndex traits table.capacity value = idealIndex traits table.capacity first :=
    (idealIndex_congr lawful equal).symm
  have here := models.holds index bound
  rw [found] at here
  have slot := here.slot
  constructor
  · intro other otherBound
    by_cases isHere : other = index
    · subst isHere
      have kept : lengthAt traits table.capacity value other =
          lengthAt traits table.capacity first other := by
        rw [lengthAt, lengthAt, probeLength, probeLength, same]
      have state := congrArg Bucket.state here
      simpa [Holds, bucket, kept] using state
    · simpa [bucket, isHere] using models.holds other otherBound
  · exact models.probing.replace bound found same
  · have exchanged : first ::ₘ RobinHood.contents table.capacity
        (update slots index (some value)) =
        value ::ₘ RobinHood.contents table.capacity slots :=
      contents_exchange bound found
    rw [models.contents, Multiset.cons_coe, Multiset.coe_eq_coe.mpr
      ((models.distinct.perm_without lawful.equivalent inList).cons
        value), without_congr lawful.equivalent equal,
      ← Multiset.cons_coe, ← Multiset.cons_coe, Multiset.cons_swap]
      at exchanged
    rw [setBucket_capacity, (Multiset.cons_inj_right first).mp exchanged]
    exact Multiset.coe_eq_coe.mpr (models.distinct.perm_replaced
      lawful.equivalent inList equal).symm
  · simpa [replaced] using models.size
  · exact models.distinct.replaced lawful.equivalent inList equal
  · intro isOrdered
    obtain ⟨order, arranged⟩ := models.ordered isOrdered
    have used : slots index ≠ none := by simp [found]
    have member : BucketPointer.index index ∈ order := (arranged.members _).mpr ⟨bound, used⟩
    refine ⟨order, arranged.listed, ?_, ?_, ?_⟩
    · intro pointer
      rw [arranged.members, setBucket_capacity, occupied_update_used bound used]
    · rw [← places_replaced lawful.equivalent models.distinct arranged.entries member slot
        equal]
      apply List.map_congr_left
      intro pointer _
      by_cases isHere : pointer = .index index <;> simp [isHere]
    · intro other unoccupied
      rw [setBucket_capacity, occupied_update_used bound used] at unoccupied
      exact arranged.linkless other unoccupied

theorem Represents.writeExisting (lawful : traits.Lawful) (bound : index < table.capacity)
    (found : slots index = some first) (equal : traits.equals first value = true)
    (behavior : HashSetExistingEntryBehavior) :
    ∃ later laterSlots, writeExisting table value behavior index =
          ((setList traits list value behavior).1, later) ∧
        Represents traits later laterSlots (setList traits list value behavior).2 ∧
        later.SameArray table := by
  have inList : first ∈ list := models.mem_iff.mpr ⟨index, bound, found⟩
  have present : (list.any fun entry => traits.equals entry value) = true :=
    List.any_eq_true.mpr ⟨first, inList, equal⟩
  cases behavior with
  | keep =>
    refine ⟨table, slots, ?_, ?_, rfl, rfl⟩
    · simp [HashTable.writeExisting, setList, present]
    · simpa [setList, present] using models
  | replace =>
    refine ⟨table.setBucket (.index index) { table.bucket index with slot := some value },
      update slots index (some value), ?_, ?_, rfl, rfl⟩
    · simp [HashTable.writeExisting, setList, present]
    · simpa [setList, present] using models.assign lawful bound found equal

/-- No entry before the index is equal to the value. -/
def Missed (traits : HashTraits T) (capacity : Nat)
    (slots : Nat → Option T) (value : T) (index : Nat) : Prop :=
  ∀ {place entry}, place < capacity → slots place = some entry → traits.equals entry value = true →
    lengthAt traits capacity value index ≤ lengthAt traits capacity value place

section

variable (lawful : traits.Lawful) (missed : Missed traits table.capacity slots value index)
  (bound : index < table.capacity)

include lawful missed bound

/-- No entry is equal to the value if the bucket at the index is free or
its entry has a smaller probe length. -/
theorem Missed.absent (richer : ∀ first ∈ slots index,
      lengthAt traits table.capacity first index < lengthAt traits table.capacity value index) :
    ∀ entry ∈ list, traits.equals entry value = false := by
  intro entry member
  by_contra differ
  have equal := Bool.not_eq_false _ ▸ differ
  obtain ⟨place, placeBound, atPlace⟩ := models.mem_iff.mp member
  rw [← lengthAt_congr lawful equal] at richer
  have shorter := models.probing.before_richer
    (idealIndex_lt (Nat.zero_lt_of_lt bound)) placeBound atPlace bound richer
  change lengthAt _ _ _ _ < lengthAt _ _ _ _ at shorter
  rw [lengthAt_congr lawful equal, lengthAt_congr lawful equal] at shorter
  exact absurd shorter (Nat.not_lt.mpr (missed placeBound atPlace equal))

omit lawful models in
theorem Missed.next (found : slots index = some first) (differ : traits.equals first value = false)
    (step : lengthAt traits table.capacity value (next table.capacity index) =
      lengthAt traits table.capacity value index + 1) :
    Missed traits table.capacity slots value (next table.capacity index) := by
  intro place entry placeBound atPlace equal
  have notBefore := missed placeBound atPlace equal
  have notHere : place ≠ index := by
    rintro rfl
    rw [found] at atPlace
    cases atPlace
    rw [differ] at equal
    cases equal
  have farther : lengthAt traits table.capacity value place ≠
      lengthAt traits table.capacity value index :=
    fun same => notHere (distance_injective
      (idealIndex_lt (Nat.zero_lt_of_lt bound) value) placeBound bound same)
  omega

end

theorem writeValueLoop_represents (lawful : traits.Lawful) (behavior : HashSetExistingEntryBehavior)
    {fuel : Nat} (stopBound : stop < table.capacity) (free : slots stop = none)
    (carried : Carried table.capacity (idealIndex traits table.capacity) slots value index)
    (missed : Missed traits table.capacity slots value index)
    (enough : distance table.capacity index stop < fuel) :
    ∃ later laterSlots, writeValueLoop traits value behavior fuel table index
          (lengthAt traits table.capacity value index) =
        some ((setList traits list value behavior).1, later) ∧
      Represents traits later laterSlots (setList traits list value behavior).2 ∧
      later.SameArray table := by
  induction fuel generalizing index with
  | zero => cases enough
  | succ fuel ih =>
    have bound := carried.bound
    have holds := models.holds index bound
    cases found : slots index with
    | none =>
      rw [found] at holds
      have isFree := holds.isFree
      have absent := missed.absent models lawful bound (by simp [found])
      rw [setList_of_absent absent]
      refine ⟨_, _, ?_, models.writeFree carried found absent, writeFree_sameArray _⟩
      simp [writeValueLoop, isFree]
    | some first =>
      rw [found] at holds
      have isUsed := holds.isFree
      have slot := holds.slot
      have target := usedBucketProbeLength_eq holds
      cases equal : traits.equals first value with
      | true =>
        obtain ⟨later, laterSlots, result, laterModels, same⟩ :=
          models.writeExisting lawful bound found equal behavior
        refine ⟨later, laterSlots, ?_, laterModels, same⟩
        simp [writeValueLoop, isUsed, slot, equal, result]
      | false =>
        have apart := ne_of_free found free
        by_cases richer : lengthAt traits table.capacity first index <
            lengthAt traits table.capacity value index
        · have absent := missed.absent models lawful bound (by simpa [found])
          obtain ⟨step, inHand⟩ := models.steal carried found richer absent stopBound free
          have stillFree : update slots index (some value) stop = none := by
            rw [update_of_ne apart.symm]
            exact free
          have displaced := @displaceLoop_represents _ traits
            (steal traits table value index (lengthAt traits table.capacity value index))
            (update slots index (some value)) (list ++ [value]) first index stop
            table.capacity (lengthAt traits table.capacity first index)
          simp only [steal_capacity] at displaced
          obtain ⟨later, laterSlots, result, laterModels, same⟩ :=
            displaced inHand step stopBound stillFree (distance_lt (next_lt bound) stopBound)
          rw [setList_of_absent absent]
          refine ⟨later, laterSlots, ?_, laterModels, same.trans (steal_sameArray _)⟩
          simp [writeValueLoop, isUsed, slot, equal, target, richer, result]
        · obtain ⟨step, carriedOn⟩ := carried_next (idealIndex_lt (Nat.zero_lt_of_lt bound)) bound
            carried.reach found (Nat.le_of_not_lt richer) stopBound free
          have closer := distance_of_next bound stopBound apart
          obtain ⟨later, laterSlots, result, laterModels, same⟩ :=
            ih carriedOn (missed.next bound found equal step) (by omega)
          refine ⟨later, laterSlots, ?_, laterModels, same⟩
          rw [lengthAt, step] at result
          simp [writeValueLoop, isUsed, slot, equal, target, richer, result]

theorem Represents.exists_free (room : table.size < table.capacity) :
    ∃ stop < table.capacity, slots stop = none := by
  apply RobinHood.exists_free
  rw [models.contents, Multiset.coe_card, ← models.size]
  exact room

theorem Represents.size_ne_zero (inList : entry ∈ list) : table.size ≠ 0 := by
  rw [models.size]
  exact (List.length_pos_of_mem inList).ne'

theorem writeValue_represents (lawful : traits.Lawful) (room : table.size < table.capacity)
    (value : T) (behavior : HashSetExistingEntryBehavior) :
    ∃ later laterSlots, writeValue traits table value behavior =
          some ((setList traits list value behavior).1, later) ∧
        Represents traits later laterSlots (setList traits list value behavior).2 ∧
        later.SameArray table := by
  have pos : 0 < table.capacity := Nat.zero_lt_of_lt room
  have start : idealIndex traits table.capacity value < table.capacity := idealIndex_lt pos value
  obtain ⟨stop, stopBound, free⟩ := models.exists_free room
  have written := writeValueLoop_represents models lawful behavior stopBound free
    (carried_start (idealIndex_lt pos) value)
    (by
      intro place entry _ _ _
      simp [probeLength])
    (distance_lt start stopBound)
  simpa [writeValue, lengthAt, probeLength] using written

end

end MixUpOS.AK.HashTable
