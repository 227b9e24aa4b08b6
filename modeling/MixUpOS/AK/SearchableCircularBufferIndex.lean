import MixUpOS.AK.SearchableCircularBuffer

/-!
# The index of a searchable buffer

As long as the reading head has not gone around the buffer, chunk number `n` of
the log is indexed at offset `n`.  The map then leads to the last chunk with a
hash, and the chain from each chunk to the last one before it.
-/

namespace MixUpOS.AK

open Library.RingLogs

namespace SearchableCircularBuffer

/-- The hash of a chunk of the log. -/
def chunkHash (log : List UInt8) (offset : Nat) : UInt32 :=
  stringHash (slice log offset hashChunkSize)

/-- The last chunk with the hash among the first ones. -/
def latest (log : List UInt8) (hash : UInt32) : Nat → Option Nat
  | 0 => none
  | count + 1 =>
    if chunkHash log count = hash then some count
    else latest log hash count

section

variable {log : List UInt8} {hash : UInt32} {count : Nat}

theorem latest_eq_some (found : latest log hash count = some offset) :
    offset < count ∧ chunkHash log offset = hash ∧
      ∀ other < count, offset < other → chunkHash log other ≠ hash := by
  induction count with
  | zero => cases found
  | succ count ih =>
    rw [latest] at found
    split_ifs at found with same
    · cases found
      exact ⟨Nat.lt_succ_self _, same, fun other bound above => by omega⟩
    obtain ⟨bound, isHash, last⟩ := ih found
    refine ⟨Nat.lt_succ_of_lt bound, isHash, ?_⟩
    intro other less above
    by_cases isLast : other = count
    · rw [isLast]
      exact same
    · exact last other (by omega) above

theorem latest_eq_none (missing : latest log hash count = none) :
    ∀ other < count, chunkHash log other ≠ hash := by
  induction count with
  | zero =>
    intro other bound
    cases bound
  | succ count ih =>
    rw [latest] at missing
    split_ifs at missing with same
    intro other less
    by_cases isLast : other = count
    · rw [isLast]
      exact same
    · exact ih missing other (by omega)

theorem latest_congr (same : ∀ other < count, chunkHash later other = chunkHash log other) :
    latest later hash count = latest log hash count := by
  induction count with
  | zero => rfl
  | succ count ih =>
    rw [latest, latest, same count (Nat.lt_succ_self _),
      ih fun other bound => same other (Nat.lt_succ_of_lt bound)]

theorem chunkHash_append (inside : offset + hashChunkSize ≤ log.length) :
    chunkHash (log ++ bytes) offset = chunkHash log offset := by
  rw [chunkHash]
  congr 1
  apply List.ext_getElem?
  intro index
  rw [slice_getElem?, slice_getElem?]
  split_ifs with bound
  · exact List.getElem?_append_left (by omega)
  · rfl

end

/-- The maps are right for the chunks before the hash head. -/
structure Chained (buffer : SearchableCircularBuffer) (log : List UInt8) : Prop where
  locations : ∀ hash, buffer.hashLocationMap hash = latest log hash buffer.hashHead
  chains : ∀ offset < buffer.hashHead, buffer.locationChainMap offset =
      latest log (chunkHash log offset) offset

/-- A searchable buffer with its log.  All chunks that can be searched are
indexed. -/
structure Indexed (buffer : SearchableCircularBuffer) (log : List UInt8)
    (consumed : Nat) : Prop where
  models : buffer.toCircularBuffer.Represents 0 log consumed
  chained : Chained buffer log
  inside : 0 < buffer.hashHead → buffer.hashHead + 2 ≤ buffer.capacity ∧
    buffer.hashHead + 2 ≤ consumed
  complete : ∀ offset, log.length ≤ offset + buffer.capacity →
    offset + hashChunkSize ≤ consumed → offset < buffer.hashHead

section

variable {log : List UInt8} {consumed : Nat}

theorem Chained.insert (chained : Chained buffer log)
    (inside : buffer.hashHead + hashChunkSize ≤ log.length) :
    ∃ later, buffer.insertLocationHash (slice log buffer.hashHead hashChunkSize)
          buffer.hashHead (true, true) = some (.ok (), later) ∧
        later.toCircularBuffer = buffer.toCircularBuffer ∧ later.hashHead = buffer.hashHead ∧
        Chained { later with hashHead := later.hashHead + 1 } log := by
  have length := @slice_length _ buffer.hashHead hashChunkSize log inside
  have isHash : stringHash (slice log buffer.hashHead hashChunkSize) =
      chunkHash log buffer.hashHead := rfl
  have atHash := chained.locations (chunkHash log buffer.hashHead)
  refine ⟨{ buffer with
    hashLocationMap := Function.update buffer.hashLocationMap
      (chunkHash log buffer.hashHead) (some buffer.hashHead)
    locationChainMap := Function.update buffer.locationChainMap buffer.hashHead
        (latest log (chunkHash log buffer.hashHead) buffer.hashHead) },
    ?_, rfl, rfl, ?_, ?_⟩
  · rw [insertLocationHash, length]
    simp only [decide_true, verify_true, some_bind, isHash]
    cases found : buffer.hashLocationMap (chunkHash log buffer.hashHead) with
    | none | some location =>
      rw [found] at atHash
      simp [← atHash]
  · intro hash
    simp only [latest, Function.update_apply]
    by_cases same : chunkHash log buffer.hashHead = hash
    · rw [if_pos same.symm, if_pos same]
    · rw [if_neg fun equal => same equal.symm, if_neg same]
      exact chained.locations hash
  · intro offset bound
    simp only [Function.update_apply]
    split_ifs with isHead
    · rw [isHead]
    · exact chained.chains offset (by simp only at bound; omega)

theorem hashChunks_chained {size remaining index : Nat} {buffer : SearchableCircularBuffer}
    (granted : ∀ offset, memory offset = (true, true))
    (models : buffer.toCircularBuffer.Represents 0 log consumed) (chained : Chained buffer log)
    (head : buffer.hashHead = start + index) (enough : index + remaining + 2 ≤ size)
    (fits : start + size ≤ buffer.capacity) (inLog : start + size ≤ log.length)
    (recent : log.length ≤ start + buffer.capacity) :
    ∃ later, hashChunks memory ⟨start, size⟩ remaining index buffer = some (.ok (), later) ∧
      later.toCircularBuffer = buffer.toCircularBuffer ∧
      later.hashHead = start + index + remaining ∧ Chained later log := by
  induction remaining generalizing index buffer with
  | zero => exact ⟨buffer, rfl, rfl, head, chained⟩
  | succ remaining ih =>
    have sliced : Span.slice ⟨start, size⟩ index hashChunkSize =
        some ⟨start + index, hashChunkSize⟩ := by
      have inside : index + 3 ≤ size := by omega
      simp [Span.slice, hashChunkSize, inside]
    have place : (start + index) % buffer.capacity = start + index := Nat.mod_eq_of_lt (by omega)
    have bytes := @CircularBuffer.Represents.bytes_eq _ _ _ _ models
      (start + index) hashChunkSize
      (by rw [hashChunkSize]; omega)
      (by rw [hashChunkSize]; omega) (by omega)
    rw [place] at bytes
    obtain ⟨middle, inserted, base, middleHead, middleChained⟩ :=
      chained.insert (by rw [hashChunkSize]; omega)
    rw [head] at inserted
    obtain ⟨later, hashed, laterBase, laterHead, laterChained⟩ :=
      @ih (index + 1) { middle with hashHead := middle.hashHead + 1 }
        (by simpa only [base] using models) middleChained
        (by simp only [middleHead, head]; omega) (by omega)
        (by simpa only [base] using fits) (by simpa only [base] using recent)
    refine ⟨later, ?_, laterBase.trans base, by omega, laterChained⟩
    simp [hashChunks, sliced, bytes, granted, inserted, hashed]

end

/-- The bytes that have been read can be indexed: there are too few of them to
search, or the reading head has not gone around and nothing was overwritten
that is not indexed yet. -/
def Hashable (buffer : SearchableCircularBuffer) (log : List UInt8)
    (consumed : Nat) (memory : Nat → Bool × Bool) : Prop :=
  buffer.searchLimit < hashChunkSize ∨ consumed ≤ buffer.capacity ∧
      (consumed = buffer.capacity → 0 < buffer.hashHead) ∧
      log.length ≤ buffer.hashHead + buffer.capacity ∧
      ∀ offset, memory offset = (true, true)

section

variable {buffer : SearchableCircularBuffer} {log : List UInt8}

section

variable (models : buffer.toCircularBuffer.Represents 0 log consumed)

include models

theorem searchLimit_eq :
    buffer.searchLimit = min buffer.capacity log.length - buffer.usedSpace := by
  rw [searchLimit, models.seekback, Nat.sub_zero]

theorem head_sub_mod (around : consumed ≤ buffer.capacity) (less : back ≤ consumed)
    (started : consumed = buffer.capacity → 0 < back) :
    (buffer.capacity + buffer.readingHead - back) % buffer.capacity = consumed - back := by
  rw [models.head]
  by_cases whole : consumed = buffer.capacity
  · rw [whole, Nat.mod_self]
    exact Nat.mod_eq_of_lt (by omega)
  · rw [Nat.mod_eq_of_lt (show consumed < buffer.capacity by omega), Nat.add_sub_assoc less,
      Nat.add_mod_left]
    exact Nat.mod_eq_of_lt (by omega)

theorem hashSpan_chained (chained : Chained buffer log) (behind : buffer.hashHead + 3 ≤ consumed)
    (around : consumed ≤ buffer.capacity)
    (started : consumed = buffer.capacity → 0 < buffer.hashHead)
    (recent : log.length ≤ buffer.hashHead + buffer.capacity)
    (granted : ∀ offset, memory offset = (true, true)) :
    ∃ later, hashSpan memory buffer = some (.ok (), later) ∧
      later.toCircularBuffer = buffer.toCircularBuffer ∧
      later.hashHead + 2 = consumed ∧ Chained later log := by
  have used := models.used
  have size := head_sub_mod models around (by omega : buffer.hashHead ≤ consumed) started
  have sliced := CircularBuffer.slice_span buffer.toCircularBuffer
    (show buffer.hashHead + (consumed - buffer.hashHead) ≤ buffer.capacity by omega)
  have long : ¬ consumed - buffer.hashHead < hashChunkSize := by
    rw [hashChunkSize]
    omega
  obtain ⟨later, hashed, base, head, laterChained⟩ :=
    @hashChunks_chained log consumed memory buffer.hashHead (consumed - buffer.hashHead)
      (consumed - buffer.hashHead + 1 - hashChunkSize) 0 buffer granted models
      chained rfl (by rw [hashChunkSize]; omega) (by omega) (by omega) recent
  refine ⟨later, ?_, base, ?_, laterChained⟩
  · simp [hashSpan, size, sliced, long, hashed]
  · rw [head, hashChunkSize]
    omega

theorem hashNewBytes_indexed (chained : Chained buffer log)
    (inside : 0 < buffer.hashHead → buffer.hashHead + 2 ≤ buffer.capacity ∧
        buffer.hashHead + 2 ≤ consumed) (hashable : Hashable buffer log consumed memory) :
    ∃ later, buffer.hashNewBytes memory = some (.ok (), later) ∧
      later.toCircularBuffer = buffer.toCircularBuffer ∧ Indexed later log consumed := by
  have used := models.used
  have limit := searchLimit_eq models
  by_cases few : buffer.searchLimit < hashChunkSize
  · refine ⟨buffer, by simp [hashNewBytes, few], rfl, models, chained, inside, ?_⟩
    intro offset recent low
    omega
  · obtain ⟨around, started, recent, granted⟩ := hashable.resolve_left few
    rw [hashChunkSize] at few
    have last := head_sub_mod models around (show hashChunkSize ≤ consumed by
      rw [hashChunkSize]; omega) (fun _ => by decide)
    have start : buffer.hashNewBytes memory =
        hashNewBytesLoop memory (consumed - 3) (buffer.capacity + 1) buffer := by
      rw [hashNewBytes, if_neg (by exact few), last, hashChunkSize]
    obtain ⟨fuel, isFuel⟩ : ∃ fuel, buffer.capacity = fuel + 1 := ⟨buffer.capacity - 1, by omega⟩
    rw [start, isFuel]
    by_cases done : consumed - 3 < buffer.hashHead
    · refine ⟨buffer, by simp [hashNewBytesLoop, done], rfl, models, chained, inside, ?_⟩
      intro offset _ low
      rw [hashChunkSize] at low
      omega
    · obtain ⟨later, hashed, base, head, laterChained⟩ :=
        hashSpan_chained models chained (by omega) around started recent granted
      have finished : consumed - 3 < later.hashHead := by omega
      have capacity : later.capacity = buffer.capacity := congrArg CircularBuffer.capacity base
      refine ⟨later, ?_, base, ?_, laterChained, ?_, ?_⟩
      · rw [hashNewBytesLoop, if_neg done, hashed]
        simp only [some_bind]
        rw [hashNewBytesLoop, if_pos finished]
      · rw [base]
        exact models
      · intro _
        omega
      · intro offset _ low
        rw [hashChunkSize] at low
        omega

end

end

end SearchableCircularBuffer

end MixUpOS.AK
