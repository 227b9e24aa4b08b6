import MixUpOS.AK.HashTableInsert

/-!
# Lookup in and removal from a hash table

A lookup walks from the ideal index to an equal entry or a free bucket.  A
deletion shifts the buckets behind the deleted one until a free bucket or an
entry at its ideal index; a bucket is shifted by one place at most.
-/

namespace MixUpOS.AK.HashTable

open Library Circular RobinHood DistinctLists Function

variable {T : Type} {traits : HashTraits T} {table : HashTable T}
variable {slots : Nat → Option T} {list : List T} {entry value : T}
variable {index stop hole : Nat}

theorem unsigned_next {capacity : Nat} (bound : index < capacity)
    (representable : capacity ≤ 2 ^ 32) :
    (if unsigned (index + 1) = capacity then 0 else unsigned (index + 1)) =
      next capacity index := by
  unfold unsigned next
  by_cases last : index + 1 = 2 ^ 32
  · have full : capacity = 2 ^ 32 := by omega
    simp [last, full]
  · have small : (index + 1) % 2 ^ 32 = index + 1 := Nat.mod_eq_of_lt (by omega)
    rw [small]

/-- The bucket of an equal entry is found, if there is one. -/
structure Finds (traits : HashTraits T) (table : HashTable T)
    (slots : Nat → Option T) (list : List T) (value : T)
    (result : Option Nat) : Prop where
  found : ∀ {index}, result = some index → index < table.capacity ∧
    ∃ entry, slots index = some entry ∧ traits.equals entry value = true
  missing : result = none → ∀ entry ∈ list, traits.equals entry value = false

theorem lookupLoop_finds {fuel : Nat} (value : T) (lawful : traits.Lawful)
    (models : Represents traits table slots list)
    (representable : table.capacity ≤ 2 ^ 32) (stopBound : stop < table.capacity)
    (free : slots stop = none) (bound : index < table.capacity)
    (reach : ∀ {earlier}, earlier < table.capacity →
      lengthAt traits table.capacity value earlier < lengthAt traits table.capacity value index →
      slots earlier ≠ none) (missed : Missed traits table.capacity slots value index)
    (enough : distance table.capacity index stop < fuel) :
    ∃ result, lookupLoop table (fun entry => traits.equals entry value) fuel index = some result ∧
      Finds traits table slots list value result := by
  induction fuel generalizing index with
  | zero => cases enough
  | succ fuel ih =>
    have holds := models.holds index bound
    cases found : slots index with
    | none =>
      rw [found] at holds
      have isFree := holds.isFree
      refine ⟨none, by simp [lookupLoop, isFree], ?_, ?_⟩
      · intro place never
        cases never
      · intro _
        exact missed.absent models lawful bound (by simp [found])
    | some first =>
      rw [found] at holds
      have isUsed := holds.isFree
      have slot := holds.slot
      cases equal : traits.equals first value with
      | true =>
        refine ⟨some index, by simp [lookupLoop, isUsed, slot, equal], ?_, ?_⟩
        · rintro place ⟨⟩
          exact ⟨bound, first, found, equal⟩
        · intro never
          cases never
      | false =>
        have apart := ne_of_free found free
        have closer := distance_of_next bound stopBound apart
        obtain ⟨step, reachNext⟩ := reach_next (idealIndex_lt (Nat.zero_lt_of_lt bound)) bound reach
          (by simp [found]) stopBound free
        obtain ⟨result, looked, finds⟩ := ih (next_lt bound) reachNext
          (missed.next bound found equal step) (by omega)
        refine ⟨result, ?_, finds⟩
        simp [lookupLoop, isUsed, slot, equal, unsigned_next bound representable, looked]

theorem find_finds (lawful : traits.Lawful) (models : Represents traits table slots list)
    (representable : table.capacity ≤ 2 ^ 32)
    (room : table.size ≠ 0 → table.size < table.capacity) (value : T) :
    ∃ result, table.find traits value = some result ∧
      Finds traits table slots list value result := by
  by_cases isEmpty : table.size = 0
  · have noEntries : list = [] := by
      have length := models.size
      rw [isEmpty] at length
      exact List.length_eq_zero_iff.mp length.symm
    refine ⟨none, by simp [find, isEmpty], ?_, ?_⟩
    · intro place never
      cases never
    · simp [noEntries]
  · have pos : 0 < table.capacity := Nat.zero_lt_of_lt (room isEmpty)
    obtain ⟨stop, stopBound, free⟩ := models.exists_free (room isEmpty)
    have start : idealIndex traits table.capacity value < table.capacity := idealIndex_lt pos value
    obtain ⟨result, looked, finds⟩ := lookupLoop_finds value lawful models
      representable stopBound free start
      (by
        intro earlier _ closer
        simp [probeLength] at closer)
      (by
        intro place entry _ _ _
        simp [probeLength])
      (distance_lt start stopBound)
    refine ⟨result, ?_, finds⟩
    simpa [find, lookupWithHash, isEmpty, idealIndex] using looked

/-- The table while the bucket at the hole is to be filled or freed. -/
structure Gap (traits : HashTraits T) (table : HashTable T)
    (slots : Nat → Option T) (list : List T) (hole : Nat) : Prop where
  holds : ∀ index < table.capacity, index ≠ hole →
    Holds traits table.capacity index (table.bucket index) (slots index)
  opened : Hole table.capacity (idealIndex traits table.capacity) slots hole
  contents : contents table.capacity slots = list
  size : table.size = list.length
  distinct : Distinct traits.equals list
  ordered : Ordered traits table (Occupied table.capacity slots false) list

theorem shiftBucket_sameArray (source target length : Nat) :
    (shiftBucket traits table source target length).SameArray table :=
  ⟨by simp [shiftBucket], by simp [shiftBucket]⟩

@[simp] theorem shiftBucket_capacity (source target length : Nat) :
    (shiftBucket traits table source target length).capacity = table.capacity :=
  (shiftBucket_sameArray source target length).2

theorem destroyBucket_sameArray : (destroyBucket traits table index).SameArray table :=
  ⟨by simp [destroyBucket], by simp [destroyBucket]⟩

@[simp] theorem destroyBucket_capacity :
    (destroyBucket traits table index).capacity = table.capacity :=
  destroyBucket_sameArray.2

theorem Represents.destroy (lawful : traits.Lawful) (models : Represents traits table slots list)
    (bound : index < table.capacity) (found : slots index = some entry) :
    Gap traits (destroyBucket traits table index) (update slots index none)
      (without traits.equals list entry) index := by
  have inList : entry ∈ list := models.mem_iff.mpr ⟨index, bound, found⟩
  have here := models.holds index bound
  rw [found] at here
  have parts := models.distinct.perm_without lawful.equivalent inList
  constructor <;> try simp
  · intro other otherBound apart
    simpa [destroyBucket, bucket, apart] using models.holds other otherBound
  · exact models.probing.open bound found
  · have cleared := contents_clear bound found
    rw [models.contents, Multiset.coe_eq_coe.mpr parts] at cleared
    exact (Multiset.cons_inj_right entry).mp cleared
  · have length := parts.length_eq
    simp [destroyBucket, models.size, length]
  · exact models.distinct.filter _
  · exact destroyBucket_ordered models.ordered bound lawful models.distinct found here.slot

theorem Gap.shift (gap : Gap traits table slots list hole)
    (found : slots (next table.capacity hole) = some entry)
    (pos : lengthAt traits table.capacity entry (next table.capacity hole) ≠ 0) :
    Gap traits (shiftBucket traits table (next table.capacity hole) hole
        (lengthAt traits table.capacity entry (next table.capacity hole)))
      (update (update slots hole (some entry)) (next table.capacity hole) none)
      list (next table.capacity hole) := by
  have bound := gap.opened.bound
  have nextBound := next_lt bound
  have apart := ne_of_free found gap.opened.empty
  have source := gap.holds _ nextBound apart
  rw [found] at source
  have slot := source.slot
  obtain ⟨step, opened⟩ := gap.opened.shift (idealIndex_lt (Nat.zero_lt_of_lt bound)) found pos
  have shorter : lengthAt traits table.capacity entry (next table.capacity hole) - 1 =
      lengthAt traits table.capacity entry hole := by
    rw [lengthAt, step]
    rfl
  constructor <;> try simp
  · intro other otherBound notNext
    by_cases here : other = hole
    · subst here
      rw [bucket] at slot
      simp [Holds, shiftBucket, bucket, apart.symm, shorter, slot]
    · simpa [shiftBucket, bucket, here, notNext] using gap.holds other otherBound here
  · exact opened
  · rw [← gap.contents]
    have filled : RobinHood.contents table.capacity (update slots hole (some entry)) =
        entry ::ₘ RobinHood.contents table.capacity slots :=
      contents_fill bound gap.opened.empty
    have stillThere : update slots hole (some entry)
        (next table.capacity hole) = some entry := by
      rw [update_of_ne apart]
      exact found
    have cleared := contents_clear nextBound stillThere
    rw [filled] at cleared
    exact (Multiset.cons_inj_right entry).mp cleared
  · simpa [shiftBucket] using gap.size
  · exact gap.distinct
  · exact shiftBucket_ordered gap.ordered bound gap.opened.empty nextBound found

theorem Gap.close (gap : Gap traits table slots list hole)
    (stops : ∀ {entry}, slots (next table.capacity hole) = some entry →
      lengthAt traits table.capacity entry (next table.capacity hole) = 0) :
    Represents traits (table.setState (.index hole) 0) slots list := by
  have bound := gap.opened.bound
  constructor
  · intro other otherBound
    by_cases here : other = hole
    · subst here
      simp [Holds, bucket, gap.opened.empty]
    · simpa [bucket, here] using gap.holds other otherBound here
  · exact gap.opened.close (idealIndex_lt (Nat.zero_lt_of_lt bound)) stops
  · exact gap.contents
  · exact gap.size
  · exact gap.distinct
  · intro isOrdered
    obtain ⟨order, arranged⟩ := gap.ordered isOrdered
    refine ⟨order, arranged.listed, arranged.members, ?_, arranged.linkless⟩
    rw [← arranged.entries]
    apply List.map_congr_left
    intro pointer _
    by_cases here : pointer = .index hole <;> simp [here]

/-- Every entry is where it was or one place before, where the places from
the hole up to the stop may be filled from the next one. -/
def ShiftedFrom (capacity : Nat) (slots laterSlots : Nat → Option T) (hole stop : Nat) : Prop :=
  ∀ {place entry}, place < capacity → laterSlots place = some entry → slots place = some entry ∨
      slots (next capacity place) = some entry ∧
        distance capacity hole place < distance capacity hole stop

theorem ShiftedFrom.step {capacity : Nat} (bound : hole < capacity) (stopBound : stop < capacity)
    (apart : hole ≠ stop) (found : slots (next capacity hole) = some entry)
    (shifted : ShiftedFrom capacity (update (update slots hole (some entry))
        (next capacity hole) none) laterSlots (next capacity hole) stop) :
    ShiftedFrom capacity slots laterSlots hole stop := by
  have total := distance_of_next bound stopBound apart
  intro place other placeBound atPlace
  rcases shifted placeBound atPlace with here | ⟨fromNext, closer⟩
  · have notNext : place ≠ next capacity hole := by
      rintro rfl
      simp at here
    rw [update_of_ne notNext] at here
    by_cases atHole : place = hole
    · subst atHole
      rw [update_self] at here
      cases here
      right
      refine ⟨found, ?_⟩
      rw [distance_self]
      omega
    · rw [update_of_ne atHole] at here
      exact .inl here
  · have notNext : next capacity place ≠ next capacity hole := by
      intro same
      rw [same, update_self] at fromNext
      cases fromNext
    have placeTotal := distance_of_next bound placeBound (by
      rintro rfl
      exact notNext rfl)
    have notHole : next capacity place ≠ hole := by
      intro closes
      -- The place before the hole is too far from the bucket behind it.
      have last := distance_of_next_eq bound closes
      have farthest := distance_lt bound stopBound
      omega
    rw [update_of_ne notNext, update_of_ne notHole] at fromNext
    exact .inr ⟨fromNext, by omega⟩

theorem shiftLoop_represents {fuel : Nat} (gap : Gap traits table slots list hole)
    (stopBound : stop < table.capacity) (free : slots stop = none) (apart : hole ≠ stop)
    (enough : distance table.capacity hole stop ≤ fuel) :
    ∃ later laterSlots, shiftLoop traits fuel table hole hole = some later ∧
      Represents traits later laterSlots list ∧ later.SameArray table ∧
      ShiftedFrom table.capacity slots laterSlots hole stop := by
  induction fuel generalizing table slots hole with
  | zero =>
    have closer := distance_of_next gap.opened.bound stopBound apart
    omega
  | succ fuel ih =>
    have bound := gap.opened.bound
    have closer := distance_of_next bound stopBound apart
    have notHole : next table.capacity hole ≠ hole := by
      intro same
      rw [same] at closer
      omega
    have holds := gap.holds _ (next_lt bound) notHole
    cases found : slots (next table.capacity hole) with
    | none =>
      rw [found] at holds
      have isFree := holds.isFree
      have closed := gap.close (by simp [found])
      refine ⟨_, slots, ?_, closed, ⟨rfl, rfl⟩, fun _ atPlace => .inl atPlace⟩
      simp [shiftLoop, isFree]
    | some entry =>
      rw [found] at holds
      have isUsed := holds.isFree
      have source := usedBucketProbeLength_eq holds
      by_cases ideal : lengthAt traits table.capacity entry (next table.capacity hole) = 0
      · have closed := gap.close (by simpa [found] using ideal)
        refine ⟨_, slots, ?_, closed, ⟨rfl, rfl⟩, fun _ atPlace => .inl atPlace⟩
        simp [shiftLoop, source, ideal]
      · have notStop := ne_of_free found free
        have shifted := gap.shift found ideal
        have rest := ih shifted
        simp only [shiftBucket_capacity] at rest
        obtain ⟨later, laterSlots, result, models, same, origin⟩ := rest stopBound (by
              rw [update_of_ne notStop.symm, update_of_ne apart.symm]
              exact free)
            notStop (by omega)
        refine ⟨later, laterSlots, ?_, models, same.trans (shiftBucket_sameArray _ _ _),
          ShiftedFrom.step bound stopBound apart found origin⟩
        simp [shiftLoop, isUsed, source, ideal, result]

/-- Deletion removes the entry of the bucket.  Every other entry is where it
was or one place before. -/
theorem deleteBucket_represents (lawful : traits.Lawful)
    (models : Represents traits table slots list) (bound : index < table.capacity)
    (found : slots index = some entry) (room : table.size < table.capacity) :
    ∃ later laterSlots, table.deleteBucket traits index = some later ∧
        Represents traits later laterSlots (without traits.equals list entry) ∧
        later.SameArray table ∧
        ∀ {place other}, place < table.capacity → laterSlots place = some other →
          slots place = some other ∧ place ≠ index ∨
            slots (next table.capacity place) = some other ∧ next table.capacity place ≠ index := by
  have holds := models.holds index bound
  rw [found] at holds
  have isUsed := holds.isFree
  obtain ⟨stop, stopBound, free⟩ := models.exists_free room
  have apart := ne_of_free found free
  have gap := models.destroy lawful bound found
  have deleted := @shiftLoop_represents _ _ _ _ _ stop _ table.capacity gap
  simp only [destroyBucket_capacity] at deleted
  obtain ⟨later, laterSlots, result, laterModels, same, origin⟩ := deleted stopBound (by
        rw [update_of_ne apart.symm]
        exact free)
      apart (Nat.le_of_lt (distance_lt bound stopBound))
  refine ⟨later, laterSlots, ?_, laterModels, same.trans destroyBucket_sameArray, ?_⟩
  · simp [deleteBucket, isUsed, bound, result]
  intro place other placeBound atPlace
  have outside : ∀ {candidate}, update slots index none candidate = some other →
        slots candidate = some other ∧ candidate ≠ index := by
    intro candidate atCandidate
    by_cases here : candidate = index
    · simp [here] at atCandidate
    · rw [update_of_ne here] at atCandidate
      exact ⟨atCandidate, here⟩
  rcases origin placeBound atPlace with here | ⟨fromNext, _⟩
  · exact .inl (outside here)
  · exact .inr (outside fromNext)

section

variable (lawful : traits.Lawful)

include lawful

theorem remove_represents (models : Represents traits table slots list)
    (representable : table.capacity ≤ 2 ^ 32)
    (room : table.size ≠ 0 → table.size < table.capacity) (value : T) :
    ∃ later laterSlots, table.remove traits value =
          some (list.any fun entry => traits.equals entry value, later) ∧
        Represents traits later laterSlots (without traits.equals list value) ∧
        later.SameArray table := by
  obtain ⟨result, looked, finds⟩ := find_finds lawful models representable room value
  cases result with
  | none =>
    have absent := finds.missing rfl
    have noneEqual : (list.any fun entry => traits.equals entry value) = false := by
      simpa using absent
    refine ⟨table, slots, ?_, ?_, rfl, rfl⟩
    · simp [remove, looked, noneEqual]
    · rw [without_of_absent absent]
      exact models
  | some index =>
    obtain ⟨bound, entry, found, equal⟩ := finds.found rfl
    have inList : entry ∈ list := models.mem_iff.mpr ⟨index, bound, found⟩
    have present : (list.any fun entry =>
        traits.equals entry value) = true :=
      List.any_eq_true.mpr ⟨entry, inList, equal⟩
    obtain ⟨later, laterSlots, deleted, laterModels, same, _⟩ :=
      deleteBucket_represents lawful models bound found (room (models.size_ne_zero inList))
    refine ⟨later, laterSlots, ?_, ?_, same⟩
    · simp [remove, looked, deleted, present]
    · rw [← without_congr lawful.equivalent equal]
      exact laterModels

theorem removeAllMatchingLoop_represents (flag : Bool) (models : Represents traits table slots list)
    (room : table.size ≠ 0 → table.size < table.capacity)
    (passed : ∀ {place entry}, place < index → place < table.capacity →
      slots place = some entry → predicate entry = false)
    (enough : (table.capacity - index) + table.size < fuel) :
    ∃ later laterSlots, removeAllMatchingLoop traits predicate fuel table index flag =
        some (flag || list.any predicate, later) ∧
      Represents traits later laterSlots (list.filter fun entry => !predicate entry) ∧
      later.SameArray table := by
  induction fuel generalizing table slots list index flag with
  | zero => cases enough
  | succ fuel ih =>
    by_cases atEnd : table.capacity ≤ index
    · have none : ∀ entry ∈ list, predicate entry = false := by
        intro entry member
        obtain ⟨place, placeBound, atPlace⟩ := models.mem_iff.mp member
        exact passed (by omega) placeBound atPlace
      have noMatch : list.any predicate = false := by simpa using none
      have kept : (list.filter fun entry => !predicate entry) = list := by simpa using none
      refine ⟨table, slots, ?_, ?_, rfl, rfl⟩
      · simp [removeAllMatchingLoop, atEnd, noMatch]
      · rw [kept]
        exact models
    · have bound : index < table.capacity := by omega
      have holds := models.holds index bound
      by_cases isMatch : ∃ entry, slots index = some entry ∧ predicate entry = true
      · obtain ⟨entry, found, matching⟩ := isMatch
        rw [found] at holds
        have isUsed := holds.isFree
        have slot := holds.slot
        have inList : entry ∈ list := models.mem_iff.mpr ⟨index, bound, found⟩
        have notFull := room (models.size_ne_zero inList)
        obtain ⟨deleted, deletedSlots, deletion, remaining, sized, origin⟩ :=
          deleteBucket_represents lawful models bound found notFull
        have capacity := sized.2
        have smaller : deleted.size + 1 = table.size := by
          have parts := (models.distinct.perm_without lawful.equivalent inList).length_eq
          rw [remaining.size, models.size, parts, List.length_cons]
        have stillPassed : ∀ {place other}, place < index → place < deleted.capacity →
            deletedSlots place = some other →
            predicate other = false := by
          intro place other before placeBound atPlace
          rw [sized.2] at placeBound
          rcases origin placeBound atPlace with
            ⟨here, _⟩ | ⟨fromNext, notIndex⟩
          · exact passed before placeBound here
          · rw [next_of_lt (by omega)] at fromNext notIndex
            exact passed (by omega) (by omega) fromNext
        have rest := @ih _ _ _
          (if (deleted.bucket index).isFree then index + 1 else index) true remaining (by omega)
          (by
            intro place other before placeBound atPlace
            have there := remaining.holds place placeBound
            rw [atPlace] at there
            have stillUsed := there.isFree
            split_ifs at before with isFree
            · apply stillPassed _ placeBound atPlace
              have apart : place ≠ index := by
                rintro rfl
                rw [isFree] at stillUsed
                cases stillUsed
              omega
            · exact stillPassed before placeBound atPlace)
          (by split_ifs <;> omega)
        have filtered : (without traits.equals list entry).filter (fun other => !predicate other) =
            list.filter fun other => !predicate other := by
          rw [without, List.filter_filter]
          apply List.filter_congr
          intro other member
          cases equal : traits.equals other entry with
          | false => simp
          | true =>
            have same := models.distinct.eq_of_same lawful.equivalent member inList equal
            simp [same, matching]
        rw [filtered] at rest
        obtain ⟨later, laterSlots, result, laterModels, same⟩ := rest
        have anyMatch : list.any predicate = true := List.any_eq_true.mpr ⟨entry, inList, matching⟩
        refine ⟨later, laterSlots, ?_, laterModels, same.trans sized⟩
        simp [removeAllMatchingLoop, atEnd, isUsed, slot, matching, deletion, result, anyMatch]
      · have here : ∀ entry, slots index = some entry → predicate entry = false := by
          simpa using isMatch
        obtain ⟨later, laterSlots, result, laterModels, same⟩ :=
          @ih _ _ _ (index + 1) flag models room
            (by
              intro place entry before placeBound atPlace
              by_cases isHere : place = index
              · subst isHere
                exact here entry atPlace
              · exact passed (by omega) placeBound atPlace) (by omega)
        refine ⟨later, laterSlots, ?_, laterModels, same⟩
        cases found : slots index with
        | none =>
          rw [found] at holds
          simp [removeAllMatchingLoop, atEnd, holds.isFree, result]
        | some entry =>
          rw [found] at holds
          simp [removeAllMatchingLoop, atEnd, holds.slot, here entry found, result]

end

end MixUpOS.AK.HashTable
