import MixUpOS.AK.HashTableGrowth
import Mathlib.Data.Set.Card

/-!
# Runs of operations on a hash table

A hash table is a set up to `equals`, and an ordered one is a sequence in the
order of insertion.  Both hold in every state that is reached by operations
whose growth fits.
-/

namespace MixUpOS.AK

open Library

namespace HashTable

open Circular LinkedSequences DistinctLists

variable {T : Type}

/-- An operation; `granted` tells whether an allocation succeeds. -/
inductive Operation (T : Type) where
  | set (value : T) (behavior : HashSetExistingEntryBehavior) (granted : Bool)
  | remove (value : T)
  | removeAllMatching (predicate : T → Bool)
  | ensureCapacity (capacity : Nat) (granted : Bool)
  | clear

inductive Answer where
  | set (result : ErrorOr HashSetResult)
  | removed (anything : Bool)
  | ensured (result : ErrorOr Unit)
  | cleared
deriving DecidableEq

namespace Operation

variable (traits : HashTraits T)

def apply (table : HashTable T) : Operation T → Option (Answer × HashTable T)
  | set value behavior granted =>
    (table.trySet traits value behavior granted).map fun outcome =>
      (.set outcome.1, outcome.2)
  | remove value =>
    (table.remove traits value).map fun outcome =>
      (.removed outcome.1, outcome.2)
  | removeAllMatching predicate =>
    (table.removeAllMatching traits predicate).map fun outcome =>
      (.removed outcome.1, outcome.2)
  | ensureCapacity capacity granted =>
    (table.tryEnsureCapacity traits capacity granted).map fun outcome =>
      (.ensured outcome.1, outcome.2)
  | clear => some (.cleared, table.clear)

/-- Growth in this state does not ask for too much. -/
def Fits (table : HashTable T) : Operation T → Prop
  | set _ _ granted => table.shouldGrow = true →
      HashTable.Fits traits table (sizeT (table.capacity * 160) / 100) granted
  | ensureCapacity capacity granted =>
    table.capacity < requiredCapacity capacity →
      HashTable.Fits traits table (requiredCapacity capacity) granted
  | _ => True

/-! ## The list of entries -/

/-- The list of entries after an operation with the given answer. -/
def afterList (list : List T) : Operation T → Answer → List T
  | set _ _ _, .set (.error _) => list
  | set value behavior _, _ => (setList traits list value behavior).2
  | remove value, _ => without traits.equals list value
  | removeAllMatching predicate, _ =>
    list.filter fun entry => !predicate entry
  | ensureCapacity _ _, _ => list
  | clear, _ => []

/-- The answers that an operation can have. -/
def ListAnswer (list : List T) : Operation T → Answer → Prop
  | set value behavior granted, answer =>
    granted = false ∧ answer = .set (.error .ENOMEM) ∨
      answer = .set (.ok (setList traits list value behavior).1)
  | remove value, answer =>
    answer = .removed (list.any fun entry => traits.equals entry value)
  | removeAllMatching predicate, answer =>
    answer = .removed (list.any predicate)
  | ensureCapacity _ granted, answer =>
    granted = false ∧ answer = .ensured (.error .ENOMEM) ∨ answer = .ensured (.ok ())
  | clear, answer => answer = .cleared

/-! ## The set of entries -/

/-- The set with a value: an equal entry is kept or replaced. -/
def withValue (entries : Set T) (value : T) : HashSetExistingEntryBehavior → Set T
  | .keep =>
    {entry | entry ∈ entries ∨ entry = value ∧ ∀ other ∈ entries, traits.equals other value = false}
  | .replace =>
    {entry | entry ∈ entries ∧ traits.equals entry value = false ∨ entry = value}

/-- The set of entries after an operation with the given answer. -/
def afterSet (entries : Set T) : Operation T → Answer → Set T
  | set _ _ _, .set (.error _) => entries
  | set value behavior _, _ => withValue traits entries value behavior
  | remove value, _ =>
    {entry | entry ∈ entries ∧ traits.equals entry value = false}
  | removeAllMatching predicate, _ =>
    {entry | entry ∈ entries ∧ predicate entry = false}
  | ensureCapacity _ _, _ => entries
  | clear, _ => ∅

def SetAnswer (entries : Set T) : Operation T → Answer → Prop
  | set value behavior granted, answer =>
    granted = false ∧ answer = .set (.error .ENOMEM) ∨
      (∀ entry ∈ entries, traits.equals entry value = false) ∧
        answer = .set (.ok .insertedNewEntry) ∨
      (∃ entry ∈ entries, traits.equals entry value = true) ∧
        answer = .set (.ok (match behavior with
          | .replace => .replacedExistingEntry
          | .keep => .keptExistingEntry))
  | remove value, answer => ∃ anything, answer = .removed anything ∧ (anything = true ↔
        ∃ entry ∈ entries, traits.equals entry value = true)
  | removeAllMatching predicate, answer =>
    ∃ anything, answer = .removed anything ∧
      (anything = true ↔ ∃ entry ∈ entries, predicate entry = true)
  | ensureCapacity _ granted, answer =>
    granted = false ∧ answer = .ensured (.error .ENOMEM) ∨ answer = .ensured (.ok ())
  | clear, answer => answer = .cleared

variable {traits} {list : List T} {operation : Operation T}

theorem any_false (none : (list.any predicate) = false) :
    ∀ entry ∈ list, predicate entry = false := by
  intro entry member
  have refuted := List.any_eq_false.mp none entry member
  simpa using refuted

theorem mem_replaced {value entry : T}
    (some : (list.any fun other => traits.equals other value) = true) :
    entry ∈ replaced traits.equals list value ↔ entry ∈ list ∧ traits.equals entry value = false ∨
        entry = value := by
  rw [replaced, List.mem_map]
  constructor
  · rintro ⟨other, member, rfl⟩
    cases equal : traits.equals other value with
    | true => exact .inr (by simp)
    | false => exact .inl ⟨by simpa using member, by simpa using equal⟩
  · rintro (⟨member, differ⟩ | rfl)
    · exact ⟨entry, member, by simp [differ]⟩
    · obtain ⟨other, member, equal⟩ := List.any_eq_true.mp some
      exact ⟨other, member, by simp [equal]⟩

theorem mem_setList {value entry : T} {behavior : HashSetExistingEntryBehavior} :
    entry ∈ withValue traits {other | other ∈ list} value behavior ↔
      entry ∈ (setList traits list value behavior).2 := by
  cases some : list.any fun other => traits.equals other value with
  | true =>
    obtain ⟨other, member, equal⟩ := List.any_eq_true.mp some
    cases behavior with
    | replace => simp [setList, some, mem_replaced, withValue]
    | keep =>
      have present : ¬ ∀ other ∈ list, traits.equals other value = false := by
        intro absent
        rw [absent other member] at equal
        cases equal
      simp [setList, some, withValue, present]
  | false =>
    have absent := any_false some
    have appended : (setList traits list value behavior).2 = list ++ [value] := by
      simp [setList, some]
    rw [appended]
    cases behavior with
    | replace =>
      have kept : entry ∈ list ↔ entry ∈ list ∧ traits.equals entry value = false :=
        ⟨fun member => ⟨member, absent entry member⟩, And.left⟩
      simp [withValue, ← kept]
    | keep =>
      have isNew : (∀ other ∈ list, traits.equals other value = false) = True := eq_true absent
      simp [withValue, isNew]

theorem afterSet_list : operation.afterSet traits {entry | entry ∈ list} answer =
      {entry | entry ∈ operation.afterList traits list answer} := by
  ext entry
  cases operation with
  | set value behavior granted =>
    cases answer with
    | set result =>
      cases result with
      | error code => rfl
      | ok result => exact mem_setList
    | _ => exact mem_setList
  | remove value => exact mem_without.symm
  | removeAllMatching predicate | clear => simp [afterSet, afterList]
  | ensureCapacity capacity granted => rfl

theorem setAnswer_of_list (possible : operation.ListAnswer traits list answer) :
    operation.SetAnswer traits {entry | entry ∈ list} answer := by
  cases operation with
  | set value behavior granted =>
    rcases possible with refused | rfl
    · exact .inl refused
    refine .inr ?_
    cases some : list.any fun other => traits.equals other value with
    | true =>
      refine .inr ⟨List.any_eq_true.mp some, ?_⟩
      cases behavior <;> simp [setList, some]
    | false => exact .inl ⟨any_false some, by simp [setList, some]⟩
  | remove value | removeAllMatching predicate => exact ⟨_, possible, List.any_eq_true⟩
  | ensureCapacity capacity granted | clear => exact possible

end Operation

section

variable {list : List T} {operation : Operation T}

/-- Every operation comes to an end, with the answer and the entries that the
list of entries has. -/
theorem apply_valid (lawful : traits.Lawful) (allocates : traits.Allocates)
    (valid : Valid traits table list) (fits : operation.Fits traits table) :
    ∃ answer later, operation.apply traits table = some (answer, later) ∧
        operation.ListAnswer traits list answer ∧
        Valid traits later (operation.afterList traits list answer) := by
  cases operation with
  | set value behavior granted =>
    obtain ⟨result, later, written, outcome⟩ :=
      trySet_valid lawful allocates valid fits value behavior
    refine ⟨.set result, later, by simp [Operation.apply, written], ?_⟩
    rcases outcome with ⟨refused, rfl, rfl⟩ | ⟨rfl, laterValid⟩
    · exact ⟨.inl ⟨refused, rfl⟩, valid⟩
    · exact ⟨.inr rfl, laterValid⟩
  | remove value =>
    obtain ⟨later, removed, laterValid⟩ := remove_valid lawful valid value
    exact ⟨_, later, by simp [Operation.apply, removed], rfl, laterValid⟩
  | removeAllMatching predicate =>
    obtain ⟨later, removed, laterValid⟩ := removeAllMatching_valid lawful valid predicate
    exact ⟨_, later, by simp [Operation.apply, removed], rfl, laterValid⟩
  | ensureCapacity capacity granted =>
    by_cases enough : requiredCapacity capacity ≤ table.capacity
    · exact ⟨.ensured (.ok ()), table, by simp [Operation.apply, tryEnsureCapacity, enough],
        .inr rfl, valid⟩
    obtain ⟨result, later, rehashed, laterValid, outcome⟩ :=
      tryRehash_valid lawful allocates valid (fits (Nat.lt_of_not_le enough))
    refine ⟨.ensured result, later,
      by simp [Operation.apply, tryEnsureCapacity, enough, rehashed], ?_, laterValid⟩
    rcases outcome with ⟨refused, rfl, _⟩ | ⟨rfl, _⟩
    · exact .inl ⟨refused, rfl⟩
    · exact .inr rfl
  | clear => exact ⟨.cleared, empty, rfl, rfl, valid_empty⟩

end

/-! ## The robin-hood invariant -/

/-- The invariant of the buckets, where a bucket's probe length is the one
that `used_bucket_probe_length` returns. -/
structure RobinHoodInvariant (traits : HashTraits T) (table : HashTable T) : Prop where
  lengths : ∀ index < table.capacity, (table.bucket index).isFree = false →
    ∃ entry, (table.bucket index).slot = some entry ∧ usedBucketProbeLength traits table index =
        some (distance table.capacity (idealIndex traits table.capacity entry) index)
  reach : ∀ index < table.capacity, (table.bucket index).isFree = false →
    ∀ entry, (table.bucket index).slot = some entry →
    ∀ between < table.capacity, distance table.capacity (idealIndex traits table.capacity entry)
          between <
        distance table.capacity (idealIndex traits table.capacity entry) index →
      (table.bucket between).isFree = false
  growth : ∀ index < table.capacity, ∀ length following,
    usedBucketProbeLength traits table index = some length →
    usedBucketProbeLength traits table (next table.capacity index) = some following →
    following ≤ length + 1
  free : table.capacity ≠ 0 → ∃ index < table.capacity, (table.bucket index).isFree = true

section

variable {list : List T} {index : Nat} {entry : T}

theorem Represents.slots_eq (models : Represents traits table slots list)
    (bound : index < table.capacity) (used : (table.bucket index).isFree = false) :
    ∃ entry, slots index = some entry := by
  have holds := models.holds index bound
  cases found : slots index with
  | none =>
    rw [found] at holds
    have isFree := holds.isFree
    rw [used] at isFree
    cases isFree
  | some entry => exact ⟨entry, rfl⟩

theorem Represents.used (models : Represents traits table slots list)
    (bound : index < table.capacity) (found : slots index = some entry) :
    (table.bucket index).isFree = false ∧ (table.bucket index).slot = some entry ∧
      usedBucketProbeLength traits table index =
        some (lengthAt traits table.capacity entry index) := by
  have holds := models.holds index bound
  rw [found] at holds
  exact ⟨holds.isFree, holds.slot, usedBucketProbeLength_eq holds⟩

theorem Valid.robinHood (valid : Valid traits table list) : RobinHoodInvariant traits table := by
  obtain ⟨slots, models⟩ := valid.represented
  constructor
  · intro index bound used
    obtain ⟨entry, found⟩ := models.slots_eq bound used
    obtain ⟨_, slot, length⟩ := models.used bound found
    exact ⟨entry, slot, length⟩
  · intro index bound used entry slot between betweenBound closer
    obtain ⟨other, found⟩ := models.slots_eq bound used
    obtain ⟨_, otherSlot, _⟩ := models.used bound found
    rw [slot] at otherSlot
    cases otherSlot
    obtain ⟨third, atBetween⟩ := Option.ne_none_iff_exists'.mp
      (models.probing.reach bound found betweenBound closer)
    exact (models.used betweenBound atBetween).1
  · intro index bound length following here after
    have usedAt : ∀ {place value}, place < table.capacity →
        usedBucketProbeLength traits table place = some value →
        ∃ entry, slots place = some entry ∧ value = lengthAt traits table.capacity entry place := by
      intro place value placeBound computed
      have used : (table.bucket place).isFree = false := by
        cases free : (table.bucket place).isFree with
        | false => rfl
        | true => simp [usedBucketProbeLength, free, verify] at computed
      obtain ⟨entry, found⟩ := models.slots_eq placeBound used
      obtain ⟨_, _, known⟩ := models.used placeBound found
      rw [known] at computed
      cases computed
      exact ⟨entry, found, rfl⟩
    obtain ⟨first, atIndex, rfl⟩ := usedAt bound here
    obtain ⟨second, atNext, rfl⟩ := usedAt (next_lt bound) after
    exact models.probing.growth bound atIndex atNext
  · intro allocated
    obtain ⟨stop, stopBound, free⟩ := models.exists_free (valid.free allocated)
    have holds := models.holds stop stopBound
    rw [free] at holds
    exact ⟨stop, stopBound, holds.isFree⟩

end

/-! ## A hash table is a set -/

/-- One operation on a table and on the set of its entries. -/
inductive SetStep (traits : HashTraits T) (admits : HashTable T → Operation T → Prop) :
    HashTable T × Set T → HashTable T × Set T → Prop where
  | apply {table later : HashTable T} {entries : Set T} {operation : Operation T} {answer : Answer}
      (admitted : admits table operation)
      (applied : operation.apply traits table = some (answer, later)) :
      SetStep traits admits (table, entries) (later, operation.afterSet traits entries answer)

/-- The set is what the table answers. -/
structure IsSet (traits : HashTraits T) (table : HashTable T) (entries : Set T) : Prop where
  finite : entries.Finite
  size : table.size = entries.ncard
  members : ∀ entry, entry ∈ entries ↔ ∃ index < table.capacity,
    (table.bucket index).isFree = false ∧ (table.bucket index).slot = some entry
  find : ∀ value, ∃ result, table.find traits value = some result ∧
    (∀ index, result = some index → ∃ entry ∈ entries, (table.bucket index).slot = some entry ∧
        traits.equals entry value = true) ∧
    (result = none → ∀ entry ∈ entries, traits.equals entry value = false)
  contains : ∀ value, ∃ answer, table.contains traits value = some answer ∧
    (answer = true ↔ ∃ entry ∈ entries, traits.equals entry value = true)
  robinHood : RobinHoodInvariant traits table

section

variable {traits : HashTraits T} {table : HashTable T} {list : List T}

section

variable (lawful : traits.Lawful)

include lawful

theorem ncard_list (distinct : Distinct traits.equals list) :
    {entry | entry ∈ list}.ncard = list.length := by
  classical
  have nodup : list.Nodup := by
    refine List.Pairwise.imp ?_ distinct
    rintro first second differ rfl
    rw [lawful.equivalent.refl] at differ
    cases differ
  have coerced : {entry | entry ∈ list} = (list.toFinset : Set T) := by
    simp
  rw [coerced, Set.ncard_coe_finset, List.toFinset_card_of_nodup nodup]

theorem Valid.find (valid : Valid traits table list) (value : T) :
    ∃ result, table.find traits value = some result ∧
      (∀ index, result = some index → ∃ entry ∈ list, (table.bucket index).slot = some entry ∧
          traits.equals entry value = true) ∧
      (result = none → ∀ entry ∈ list, traits.equals entry value = false) := by
  obtain ⟨slots, models⟩ := valid.represented
  obtain ⟨result, looked, finds⟩ := find_finds lawful models
    valid.representable valid.room value
  refine ⟨result, looked, ?_, finds.missing⟩
  intro index isIndex
  obtain ⟨bound, entry, found, equal⟩ := finds.found isIndex
  obtain ⟨_, slot, _⟩ := models.used bound found
  exact ⟨entry, models.mem_iff.mpr ⟨index, bound, found⟩, slot, equal⟩

theorem Valid.isSet (valid : Valid traits table list) :
    IsSet traits table {entry | entry ∈ list} where
  finite := List.finite_toSet list
  size := by
    obtain ⟨slots, models⟩ := valid.represented
    rw [ncard_list lawful models.distinct, models.size]
  members := by
    obtain ⟨slots, models⟩ := valid.represented
    intro entry
    rw [Set.mem_ofPred_eq, models.mem_iff]
    constructor
    · rintro ⟨index, bound, found⟩
      obtain ⟨used, slot, _⟩ := models.used bound found
      exact ⟨index, bound, used, slot⟩
    · rintro ⟨index, bound, used, slot⟩
      obtain ⟨other, found⟩ := models.slots_eq bound used
      obtain ⟨_, otherSlot, _⟩ := models.used bound found
      rw [slot] at otherSlot
      cases otherSlot
      exact ⟨index, bound, found⟩
  find := valid.find lawful
  contains := by
    intro value
    obtain ⟨result, looked, found, missing⟩ := valid.find lawful value
    refine ⟨result.isSome, by simp [HashTable.contains, looked], ?_⟩
    cases result with
    | none =>
      constructor
      · intro never
        cases never
      · rintro ⟨entry, member, equal⟩
        rw [missing rfl entry member] at equal
        cases equal
    | some index =>
      obtain ⟨entry, member, _, equal⟩ := found index rfl
      exact ⟨fun _ => ⟨entry, member, equal⟩, fun _ => rfl⟩
  robinHood := valid.robinHood

/-- A table that operations have led to whose growth fits is the set that
they have led to, and the next one comes to an end. -/
theorem reachable_isSet (allocates : traits.Allocates) {entries : Set T}
    (run : Relation.ReflTransGen (SetStep traits fun table operation => operation.Fits traits table)
      (empty, ∅) (table, entries)) :
    IsSet traits table entries ∧ ∀ operation : Operation T, operation.Fits traits table →
        ∃ answer later, operation.apply traits table = some (answer, later) ∧
          operation.SetAnswer traits entries answer := by
  have represented : ∃ list, Valid traits table list ∧ entries = {entry | entry ∈ list} := by
    generalize reached : (table, entries) = state at run
    induction run generalizing table entries with
    | refl =>
      cases reached
      exact ⟨[], valid_empty, by simp⟩
    | tail _ step ih =>
      cases step with
      | @apply before after earlier operation answer admitted applied =>
        cases reached
        obtain ⟨list, valid, rfl⟩ := ih rfl
        obtain ⟨known, next, same, _, laterValid⟩ := apply_valid lawful allocates valid admitted
        rw [applied] at same
        cases same
        exact ⟨_, laterValid, Operation.afterSet_list⟩
  obtain ⟨list, valid, rfl⟩ := represented
  refine ⟨valid.isSet lawful, ?_⟩
  intro operation fits
  obtain ⟨answer, later, applied, possible, _⟩ := apply_valid lawful allocates valid fits
  exact ⟨answer, later, applied, Operation.setAnswer_of_list possible⟩

end

end

/-! ## An ordered hash table is a sequence -/

/-- An operation on an ordered table. -/
inductive OrderedOperation (T : Type) where
  | basic (operation : Operation T)
  | takeFirst
  | takeLast

inductive OrderedAnswer (T : Type) where
  | answer (answer : Answer)
  | taken (element : T)

namespace OrderedOperation

variable (traits : HashTraits T)

def apply (table : HashTable T) : OrderedOperation T → Option (OrderedAnswer T × HashTable T)
  | basic operation =>
    (operation.apply traits table).map fun outcome =>
      (.answer outcome.1, outcome.2)
  | takeFirst =>
    (table.takeFirst traits).map fun outcome =>
      (.taken outcome.1, outcome.2)
  | takeLast =>
    (table.takeLast traits).map fun outcome =>
      (.taken outcome.1, outcome.2)

def Fits (table : HashTable T) : OrderedOperation T → Prop
  | basic operation => operation.Fits traits table
  | _ => True

/-- Only from a sequence that is not empty something can be taken. -/
def Takes (list : List T) : OrderedOperation T → Prop
  | basic _ => True
  | _ => list ≠ []

/-- The sequence after an operation with the given answer. -/
def afterList (list : List T) : OrderedOperation T → OrderedAnswer T → List T
  | basic operation, .answer answer =>
    operation.afterList traits list answer
  | basic _, .taken _ => list
  | takeFirst, _ => list.tail
  | takeLast, _ => list.dropLast

def ListAnswer (list : List T) : OrderedOperation T → OrderedAnswer T → Prop
  | basic operation, .answer answer =>
    operation.ListAnswer traits list answer
  | takeFirst, .taken element => list.head? = some element
  | takeLast, .taken element => list.getLast? = some element
  | _, _ => False

end OrderedOperation

/-- One operation on an ordered table and on the sequence of its entries. -/
inductive OrderedStep (traits : HashTraits T) (admits : HashTable T → OrderedOperation T → Prop) :
    HashTable T × List T → HashTable T × List T → Prop where
  | apply {table later : HashTable T} {list : List T}
      {operation : OrderedOperation T} {answer : OrderedAnswer T}
      (admitted : admits table operation)
      (applied : operation.apply traits table = some (answer, later)) :
      OrderedStep traits admits (table, list) (later, operation.afterList traits list answer)

namespace OrderedStep

variable {list : List T}

theorem basic (admitted : admits table (.basic operation))
    (applied : operation.apply traits table = some (answer, later)) :
    OrderedStep traits admits (table, list) (later, operation.afterList traits list answer) := by
  have asOrdered : (OrderedOperation.basic operation).apply traits table =
      some (.answer answer, later) := by
    simp [OrderedOperation.apply, applied]
  exact .apply admitted asOrdered

theorem takeFirst (admitted : admits table .takeFirst)
    (taken : table.takeFirst traits = some (element, later)) :
    OrderedStep traits admits (table, list) (later, list.tail) := by
  have asOrdered : OrderedOperation.takeFirst.apply traits table =
      some (.taken element, later) := by
    simp [OrderedOperation.apply, taken]
  exact .apply admitted asOrdered

end OrderedStep

/-- The sequence is what the iterators yield, and the used buckets are
threaded in its order. -/
structure IsSequence (traits : HashTraits T) (table : HashTable T) (list : List T) : Prop where
  values : table.values traits = some list
  valuesInReverse : table.valuesInReverse = some list.reverse
  threaded : ∃ order, Listed table.links order ∧
    (∀ pointer, pointer ∈ order ↔ ∃ index < table.capacity,
      pointer = .index index ∧ (table.bucket index).isFree = false) ∧
    order.map (fun pointer => (table.buckets pointer).slot) = list.map some

section

variable {traits : HashTraits T} {table later : HashTable T} {list : List T}
  {operation : OrderedOperation T} {answer : OrderedAnswer T}

theorem orderedApply_valid (lawful : traits.Lawful) (allocates : traits.Allocates)
    (isOrdered : traits.isOrdered = true) (valid : Valid traits table list)
    (fits : operation.Fits traits table) (takes : operation.Takes list) :
    ∃ answer later, operation.apply traits table = some (answer, later) ∧
        operation.ListAnswer traits list answer ∧
        Valid traits later (operation.afterList traits list answer) := by
  cases operation with
  | basic operation =>
    obtain ⟨answer, later, applied, possible, laterValid⟩ := apply_valid lawful allocates valid fits
    exact ⟨.answer answer, later, by simp [OrderedOperation.apply, applied], possible, laterValid⟩
  | takeFirst =>
    cases list with
    | nil => exact absurd rfl takes
    | cons entry rest =>
      obtain ⟨later, taken, laterValid⟩ := takeFirst_valid lawful isOrdered valid
      exact ⟨.taken entry, later, by simp [OrderedOperation.apply, taken], rfl, laterValid⟩
  | takeLast =>
    rcases List.eq_nil_or_concat' list with rfl | ⟨rest, entry, rfl⟩
    · exact absurd rfl takes
    · obtain ⟨later, taken, laterValid⟩ := takeLast_valid lawful isOrdered valid
      refine ⟨.taken entry, later, by simp [OrderedOperation.apply, taken], ?_, ?_⟩
      · simp [OrderedOperation.ListAnswer]
      · simpa [OrderedOperation.afterList] using laterValid

theorem takes_of_apply (valid : Valid traits table list)
    (applied : operation.apply traits table = some (answer, later)) : operation.Takes list := by
  have nothing : ∀ endOfList, list = [] → table.takeEnd traits endOfList = none := by
    rintro endOfList rfl
    obtain ⟨slots, models⟩ := valid.represented
    simp [takeEnd, models.size, verify]
  cases operation with
  | basic operation => exact trivial
  | takeFirst =>
    intro isEmpty
    simp [OrderedOperation.apply, HashTable.takeFirst, nothing _ isEmpty] at applied
  | takeLast =>
    intro isEmpty
    simp [OrderedOperation.apply, HashTable.takeLast, nothing _ isEmpty] at applied

theorem Valid.isSequence (isOrdered : traits.isOrdered = true)
    (valid : Valid traits table list) : IsSequence traits table list := by
  obtain ⟨slots, models⟩ := valid.represented
  obtain ⟨order, arranged⟩ := models.ordered isOrdered
  constructor
  · obtain ⟨entries, visited, _, exact⟩ := models.values valid.room
    rw [visited, exact isOrdered]
  · have visited := arranged.listed.walk_previous (models.length_le arranged.entries valid.room)
    have read : table.valuesOf order.reverse = some list.reverse := by
      apply valuesOf_eq_some
      rw [List.map_reverse, arranged.entries, List.map_reverse]
    simp [valuesInReverse, visited, read]
  · refine ⟨order, arranged.listed, ?_, arranged.entries⟩
    intro pointer
    rw [arranged.members]
    cases pointer with
    | bucketToMove =>
      constructor
      · intro never
        cases never
      · rintro ⟨_, _, never, _⟩
        cases never
    | index index =>
      constructor
      · rintro ⟨bound, filled⟩
        obtain ⟨entry, found⟩ := Option.ne_none_iff_exists'.mp filled
        exact ⟨index, bound, rfl, (models.used bound found).1⟩
      · rintro ⟨place, bound, same, used⟩
        cases same
        obtain ⟨entry, found⟩ := models.slots_eq bound used
        exact ⟨bound, by simp [found]⟩

/-- An ordered table that operations have led to whose growth fits is the
sequence that they have led to, and the next one comes to an end. -/
theorem reachable_isSequence (lawful : traits.Lawful)
    (allocates : traits.Allocates) (isOrdered : traits.isOrdered = true)
    (run : Relation.ReflTransGen
      (OrderedStep traits fun table operation => operation.Fits traits table)
      (empty, []) (table, list)) :
    IsSequence traits table list ∧ ∀ operation : OrderedOperation T, operation.Fits traits table →
        operation.Takes list → ∃ answer later, operation.apply traits table = some (answer, later) ∧
          operation.ListAnswer traits list answer := by
  have valid : Valid traits table list := by
    generalize reached : (table, list) = state at run
    induction run generalizing table list with
    | refl =>
      cases reached
      exact valid_empty
    | tail _ step ih =>
      cases step with
      | @apply before after earlier operation answer admitted applied =>
        cases reached
        have valid := ih rfl
        obtain ⟨known, next, same, _, laterValid⟩ :=
          orderedApply_valid lawful allocates isOrdered valid admitted
            (takes_of_apply valid applied)
        rw [applied] at same
        cases same
        exact laterValid
  refine ⟨valid.isSequence isOrdered, ?_⟩
  intro operation fits takes
  obtain ⟨answer, later, applied, possible, _⟩ :=
    orderedApply_valid lawful allocates isOrdered valid fits takes
  exact ⟨answer, later, applied, possible⟩

end

/-! ## Growth that does not fit -/

/-- All entries have the same hash, and memory of any size is granted as it
is asked for. -/
def collidingTraits (isOrdered : Bool) (bucketSize : Nat) : HashTraits Bool where
  hash := fun _ => 0xFFFFFFFF
  equals := fun first second => first == second
  isOrdered := isOrdered
  bucketSize := bucketSize
  goodSize := id

theorem collidingTraits_lawful (isOrdered : Bool) (bucketSize : Nat) :
    (collidingTraits isOrdered bucketSize).Lawful where
  equivalent :=
    { refl := by simp [collidingTraits]
      symm := by
        simp only [collidingTraits, beq_iff_eq]
        exact Eq.symm
      trans := by
        simp only [collidingTraits, beq_iff_eq]
        exact Eq.trans }
  hash_eq := fun _ => rfl

theorem collidingTraits_allocates (pos : 0 < bucketSize) (isOrdered : Bool) :
    (collidingTraits isOrdered bucketSize).Allocates where
  positive := pos
  goodSize_ge := fun _ _ => Nat.le_refl _

theorem fits_empty (isOrdered : Bool) :
    (Operation.set false .keep true).Fits (collidingTraits isOrdered 24) empty := by
  intro _
  simp [HashTable.Fits, collidingTraits, empty, sizeT]

/-- A table gets two entries with the same hash. -/
theorem exists_two (isOrdered : Bool) : ∃ first second,
    (Operation.set false .keep true).apply (collidingTraits isOrdered 24) empty =
        some (.set (.ok .insertedNewEntry), first) ∧
      (Operation.set true .keep true).Fits (collidingTraits isOrdered 24) first ∧
      (Operation.set true .keep true).apply (collidingTraits isOrdered 24) first =
        some (.set (.ok .insertedNewEntry), second) ∧ (isOrdered = true → ∃ third,
        second.takeFirst (collidingTraits isOrdered 24) = some (false, third)) := by
  have evaluated : (do
      let first ← (Operation.set false .keep true).apply (collidingTraits isOrdered 24) empty
      let second ← (Operation.set true .keep true).apply (collidingTraits isOrdered 24) first.2
      return (first.1, first.2.shouldGrow, second.1, isOrdered &&
        (second.2.takeFirst (collidingTraits isOrdered 24)).map Prod.fst == some false)) =
        some (.set (.ok .insertedNewEntry), false, .set (.ok .insertedNewEntry), isOrdered) := by
    cases isOrdered <;> decide +kernel
  obtain ⟨⟨_, first⟩, appliedFirst, evaluated⟩ := Option.bind_eq_some_iff.mp evaluated
  obtain ⟨⟨_, second⟩, appliedSecond, evaluated⟩ := Option.bind_eq_some_iff.mp evaluated
  simp only [pure, Option.some.injEq, Prod.mk.injEq] at evaluated
  obtain ⟨rfl, stays, rfl, taken⟩ := evaluated
  refine ⟨first, second, appliedFirst, ?_, appliedSecond, ?_⟩
  · intro grows
    rw [stays] at grows
    cases grows
  · rintro rfl
    simpa using taken

theorem reachable_isSet_two : ∃ table, Relation.ReflTransGen
          (SetStep (collidingTraits false 24) fun table operation =>
            operation.Fits (collidingTraits false 24) table)
          (empty, ∅) (table, {false, true}) ∧
        IsSet (collidingTraits false 24) table {false, true} := by
  obtain ⟨first, second, appliedFirst, fits, appliedSecond, _⟩ := exists_two false
  have both : {false, true} = Operation.afterSet (collidingTraits false 24)
      (Operation.afterSet (collidingTraits false 24) ∅ (.set false .keep true)
        (.set (.ok .insertedNewEntry))) (.set true .keep true) (.set (.ok .insertedNewEntry)) := by
    ext entry
    cases entry <;> simp [Operation.afterSet, Operation.withValue, collidingTraits]
  refine ⟨second, (and_iff_left_of_imp fun run => (reachable_isSet
    (collidingTraits_lawful false 24) (collidingTraits_allocates (by decide) _) run).1).mpr ?_⟩
  rw [both]
  exact .tail (.single (.apply (fits_empty false) appliedFirst))
    (.apply fits appliedSecond)

/-- One of two entries is taken. -/
theorem reachable_isSequence_one :
    ∃ table, Relation.ReflTransGen (OrderedStep (collidingTraits true 24) fun table operation =>
            operation.Fits (collidingTraits true 24) table)
          (empty, []) (table, [true]) ∧
        IsSequence (collidingTraits true 24) table [true] := by
  obtain ⟨first, second, appliedFirst, fits, appliedSecond, taken⟩ := exists_two true
  obtain ⟨third, taken⟩ := taken rfl
  refine ⟨third, (and_iff_left_of_imp fun run => (reachable_isSequence
    (collidingTraits_lawful true 24) (collidingTraits_allocates (by decide) _) rfl run).1).mpr ?_⟩
  exact .tail (.tail (.single (.basic (by exact fits_empty true) appliedFirst))
    (.basic (by exact fits) appliedSecond)) (.takeFirst trivial taken)

def Anything {Argument : Type} (_ : HashTable Bool) (_ : Argument) : Prop := True

/-- With more buckets than an `unsigned` can count, the second of two entries
with the same hash is written behind those that are looked at. -/
theorem exists_beyond_unsigned (isOrdered : Bool) :
    ∃ reserved first second, (Operation.ensureCapacity 3435973837 true).apply
          (collidingTraits isOrdered 24) empty = some (.ensured (.ok ()), reserved) ∧
      (Operation.set false .replace true).apply (collidingTraits isOrdered 24) reserved =
        some (.set (.ok .insertedNewEntry), first) ∧
      (Operation.set true .replace true).apply (collidingTraits isOrdered 24) first =
        some (.set (.ok .insertedNewEntry), second) ∧
      second.find (collidingTraits isOrdered 24) true = some none ∧
      (isOrdered = true → second.values (collidingTraits isOrdered 24) = some [false, true]) := by
  have evaluated : (do
      let reserved ← (Operation.ensureCapacity 3435973837 true).apply
        (collidingTraits isOrdered 24) empty
      let first ← (Operation.set false .replace true).apply
        (collidingTraits isOrdered 24) reserved.2
      let second ← (Operation.set true .replace true).apply (collidingTraits isOrdered 24) first.2
      return ([reserved.1, first.1, second.1], second.2.find (collidingTraits isOrdered 24) true,
        isOrdered && second.2.values (collidingTraits isOrdered 24) == some [false, true])) =
        some ([.ensured (.ok ()), .set (.ok .insertedNewEntry),
          .set (.ok .insertedNewEntry)], some none, isOrdered) := by
    cases isOrdered <;> decide +kernel
  obtain ⟨⟨_, reserved⟩, ensured, evaluated⟩ := Option.bind_eq_some_iff.mp evaluated
  obtain ⟨⟨_, first⟩, appliedFirst, evaluated⟩ := Option.bind_eq_some_iff.mp evaluated
  obtain ⟨⟨_, second⟩, appliedSecond, evaluated⟩ := Option.bind_eq_some_iff.mp evaluated
  simp only [pure, Option.some.injEq, Prod.mk.injEq, List.cons.injEq, and_true] at evaluated
  obtain ⟨⟨rfl, rfl, rfl⟩, missed, visited⟩ := evaluated
  refine ⟨reserved, first, second, ensured, appliedFirst, appliedSecond, missed, ?_⟩
  rintro rfl
  simpa using visited

/-- Growth that does not fit loses an entry, or leaves a table without a free
bucket in which a lookup does not end. -/
theorem not_isSet_of_growth :
    (∃ table entries, Relation.ReflTransGen (SetStep (collidingTraits false 24) Anything) (empty, ∅)
        (table, entries) ∧
      true ∈ entries ∧
      table.contains (collidingTraits false 24) true = some false) ∧
    ∃ table entries, Relation.ReflTransGen (SetStep (collidingTraits false 128) Anything) (empty, ∅)
        (table, entries) ∧
      (∀ index < table.capacity, (table.bucket index).isFree = false) ∧
      ∀ fuel, table.lookupLoop (fun entry =>
        (collidingTraits false 128).equals entry true) fuel
          (idealIndex (collidingTraits false 128) table.capacity true) =
        none := by
  constructor
  · obtain ⟨reserved, first, second, ensured, appliedFirst, appliedSecond,
      missed, _⟩ := exists_beyond_unsigned false
    refine ⟨second, _, .tail (.tail (.single (.apply trivial ensured))
      (.apply trivial appliedFirst)) (.apply trivial appliedSecond), .inr rfl, ?_⟩
    simp [HashTable.contains, missed]
  · have evaluated : (do
        let first ← (Operation.set false .replace true).apply (collidingTraits false 128) empty
        let second ← (Operation.ensureCapacity 115292150460684698 true).apply
          (collidingTraits false 128) first.2
        return (second.2.capacity, second.2.bucket 0)) = some (1, ⟨1, some false⟩) := by
      decide +kernel
    obtain ⟨⟨_, first⟩, applied, evaluated⟩ := Option.bind_eq_some_iff.mp evaluated
    obtain ⟨⟨_, second⟩, ensured, evaluated⟩ := Option.bind_eq_some_iff.mp evaluated
    simp only [pure, Option.some.injEq, Prod.mk.injEq] at evaluated
    obtain ⟨capacity, bucket⟩ := evaluated
    refine ⟨second, _, .tail (.single (.apply trivial applied)) (.apply trivial ensured), ?_, ?_⟩
    · intro index bound
      obtain rfl : index = 0 := by omega
      simp [bucket, Bucket.isFree]
    · intro fuel
      rw [idealIndex, capacity, Nat.mod_one]
      have around : (if unsigned (0 + 1) = second.capacity then 0
          else unsigned (0 + 1)) = 0 := by
        simp [capacity, unsigned]
      induction fuel with
      | zero => rfl
      | succ fuel ih =>
        simp only [lookupLoop, bucket, around, ih]
        rfl

/-- An entry that is not found is not removed from the sequence. -/
theorem not_isSequence_of_growth :
    ∃ table, Relation.ReflTransGen (OrderedStep (collidingTraits true 24) Anything) (empty, [])
        (table, [false]) ∧ table.values (collidingTraits true 24) = some [false, true] := by
  obtain ⟨reserved, first, second, ensured, appliedFirst, appliedSecond,
    missed, visited⟩ := exists_beyond_unsigned true
  have removed : (Operation.remove true).apply (collidingTraits true 24)
      second = some (.removed false, second) := by
    simp [Operation.apply, HashTable.remove, missed]
  exact ⟨second, .tail (.tail (.tail (.single (.basic trivial ensured))
    (.basic trivial appliedFirst)) (.basic trivial appliedSecond)) (.basic trivial removed),
    visited rfl⟩

end HashTable

end MixUpOS.AK
