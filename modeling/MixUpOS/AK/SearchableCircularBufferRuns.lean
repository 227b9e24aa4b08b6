import MixUpOS.AK.SearchableCircularBufferSearch

/-!
# Runs of operations on a searchable buffer

A run keeps the log of all bytes that were written, and how many of them have
been read or discarded.  The index is complete as long as the reading head has
not gone around the buffer.
-/

namespace MixUpOS.AK

open Library.RingLogs

namespace SearchableCircularBuffer

inductive Operation where
  | write (bytes : List UInt8)
  | read (size : Nat) (memory : Nat → Bool × Bool)
  | discard (size : Nat) (memory : Nat → Bool × Bool)
  | find (maxLength minLength : Nat)

inductive Answer where
  | written (count : Nat)
  | bytes (result : Except StreamError (List UInt8))
  | discarded (result : Except StreamError Unit)
  | found (result : Option Match)

def apply (buffer : SearchableCircularBuffer) :
    Operation → Option (Answer × SearchableCircularBuffer)
  | .write bytes => do
      let (count, buffer) ← buffer.write bytes
      return (.written count, buffer)
  | .read size memory => do
      let (result, buffer) ← buffer.read size memory
      return (.bytes result, buffer)
  | .discard size memory => do
      let (result, buffer) ← buffer.discard size memory
      return (.discarded result, buffer)
  | .find maxLength minLength => do
      let (result, buffer) ← buffer.findCopyInSeekback maxLength minLength
      return (.found result, buffer)

/-- The bytes that were written, and how many of them have been taken out. -/
structure History where
  log : List UInt8
  consumed : Nat

namespace History

/-- How many bytes are left. -/
def unread (history : History) : Nat := history.log.length - history.consumed

/-- The history after an operation with its answer. -/
def after (history : History) : Operation → Answer → History
  | .write bytes, .written count =>
    { history with log := history.log ++ bytes.take count }
  | .read size _, _ =>
    { history with
      consumed := history.consumed + min size history.unread }
  | .discard size _, _ =>
    if history.unread < size then history
    else { history with consumed := history.consumed + size }
  | _, _ => history

end History

/-- The chunks up to the head can be indexed after some bytes are consumed. -/
def CanConsume (buffer : SearchableCircularBuffer) (history : History)
    (count : Nat) (memory : Nat → Bool × Bool) : Prop :=
  buffer.searchLimit + count < hashChunkSize ∨ history.consumed + count ≤ buffer.capacity ∧
      (history.consumed + count = buffer.capacity → 0 < buffer.hashHead) ∧
      history.log.length ≤ buffer.hashHead + buffer.capacity ∧
      ∀ offset, memory offset = (true, true)

/-- The bytes that an operation consumes can be indexed.  A search asks for at
most a chunk, and no indexed chunk with the hash of the next bytes has been
overwritten. -/
def Admits (buffer : SearchableCircularBuffer) (history : History) : Operation → Prop
  | .write _ => True
  | .read size memory =>
    buffer.CanConsume history (min size buffer.usedSpace) memory
  | .discard size memory =>
    buffer.usedSpace < size ∨ buffer.CanConsume history size memory
  | .find maxLength minLength =>
    0 < minLength ∧ minLength ≤ hashChunkSize ∧
      (hashChunkSize ≤ min maxLength buffer.usedSpace →
        Fresh buffer history.log history.consumed)

/-- A run from an empty buffer. -/
inductive Run (admits : SearchableCircularBuffer → History → Operation → Prop)
    (memory : List UInt8) : SearchableCircularBuffer → History → Prop where
  | start {buffer : SearchableCircularBuffer} (created : createEmpty (some memory) = .ok buffer) :
      Run admits memory buffer ⟨[], 0⟩
  | step {buffer later : SearchableCircularBuffer} {history : History}
      {operation : Operation} {answer : Answer}
      (run : Run admits memory buffer history)
      (admitted : admits buffer history operation)
      (applied : buffer.apply operation = some (answer, later)) :
      Run admits memory later (history.after operation answer)

section

variable {buffer : SearchableCircularBuffer} {history : History}

/-- The invariant of a run. -/
def Tracks (buffer : SearchableCircularBuffer) (history : History) : Prop :=
  Indexed buffer history.log history.consumed

section

variable (tracks : Tracks buffer history)

include tracks

theorem Tracks.unread_eq : history.unread = buffer.usedSpace := by
  have used := tracks.models.used
  rw [History.unread]
  omega

theorem write_tracks (bytes : List UInt8) :
    ∃ answer later, buffer.apply (.write bytes) = some (answer, later) ∧
      Tracks later (history.after (.write bytes) answer) := by
  obtain ⟨written, wrote, capacity, models⟩ :=
    @CircularBuffer.Represents.write _ _ _ _ bytes (.outside bytes) tracks.models rfl
  generalize min bytes.length buffer.emptySpace = size at wrote models
  have used := tracks.models.used
  have inLog : ∀ offset < buffer.hashHead, offset + hashChunkSize ≤ history.log.length := by
    intro offset bound
    obtain ⟨_, inside⟩ := tracks.inside (by omega)
    rw [hashChunkSize]
    omega
  have same : ∀ offset < buffer.hashHead, chunkHash (history.log ++ bytes.take size) offset =
        chunkHash history.log offset := by
    intro offset bound
    exact chunkHash_append (inLog offset bound)
  refine ⟨.written size, { buffer with toCircularBuffer := written }, ?_,
    models, ⟨?_, ?_⟩, ?_, ?_⟩
  · simp [apply, write, wrote]
  · intro hash
    exact (tracks.chained.locations hash).trans (latest_congr same).symm
  · intro offset bound
    rw [tracks.chained.chains offset bound]
    simp only [History.after]
    rw [same offset bound]
    exact (latest_congr fun other less =>
      same other (Nat.lt_trans less bound)).symm
  · intro pos
    obtain ⟨fits, inside⟩ := tracks.inside pos
    refine ⟨?_, inside⟩
    rw [capacity]
    exact fits
  · intro offset recent low
    apply tracks.complete offset ?_ low
    simp only [History.after, List.length_append, capacity] at recent
    omega

theorem consume_tracks {count : Nat} {memory : Nat → Bool × Bool}
    (capacity : rest.capacity = buffer.capacity)
    (models : rest.Represents 0 history.log (history.consumed + count))
    (admitted : buffer.CanConsume history count memory) :
    ∃ later, hashNewBytes { buffer with toCircularBuffer := rest } memory = some (.ok (), later) ∧
      Tracks later { history with consumed := history.consumed + count } := by
  have limit : buffer.searchLimit + count = searchLimit
      { buffer with toCircularBuffer := rest } := by
    have total := searchLimit_add_used tracks.models
    have restTotal := @searchLimit_add_used _ { buffer with toCircularBuffer := rest } _ models
    simp only [capacity] at restTotal
    omega
  have hashable : Hashable { buffer with toCircularBuffer := rest }
      history.log (history.consumed + count) memory := by
    rw [CanConsume, limit, ← capacity] at admitted
    exact admitted
  have inside : 0 < buffer.hashHead → buffer.hashHead + 2 ≤ rest.capacity ∧
        buffer.hashHead + 2 ≤ history.consumed + count := by
    intro pos
    obtain ⟨fits, inside⟩ := tracks.inside pos
    omega
  obtain ⟨later, hashed, _, indexed⟩ :=
    @hashNewBytes_indexed _ { buffer with toCircularBuffer := rest } _
      models _ ⟨tracks.chained.1, tracks.chained.2⟩ inside hashable
  exact ⟨later, hashed, indexed⟩

theorem read_tracks (admitted : buffer.Admits history (.read size memory)) :
    ∃ answer later, buffer.apply (.read size memory) = some (answer, later) ∧
      Tracks later (history.after (.read size memory) answer) := by
  obtain ⟨rest, taken, capacity, models⟩ := tracks.models.read size
  obtain ⟨later, hashed, laterTracks⟩ := consume_tracks tracks capacity models admitted
  refine ⟨.bytes (.ok (slice history.log history.consumed
    (min size buffer.usedSpace))), later, ?_, ?_⟩
  · simp only [apply, read, taken, hashed, some_bind]
    rfl
  · rw [History.after, tracks.unread_eq]
    exact laterTracks

theorem discard_tracks {memory : Nat → Bool × Bool}
    (admitted : buffer.Admits history (.discard size memory)) :
    ∃ answer later, buffer.apply (.discard size memory) = some (answer, later) ∧
      Tracks later (history.after (.discard size memory) answer) := by
  have unread := tracks.unread_eq
  by_cases more : buffer.usedSpace < size
  · refine ⟨.discarded (.error (.stringLiteral
      "Can not discard more data than what the buffer contains")), buffer,
      ?_, ?_⟩
    · simp only [apply, discard, CircularBuffer.discard, if_pos more, some_bind]
      rfl
    · rw [History.after, if_pos (by omega)]
      exact tracks
  · obtain ⟨later, hashed, laterTracks⟩ := @consume_tracks _ _ tracks { buffer.toCircularBuffer with
          usedSpace := buffer.usedSpace - size
          readingHead := (buffer.readingHead + size) % buffer.capacity }
        size memory rfl
        (tracks.models.consume (Nat.le_of_not_lt more) rfl rfl rfl rfl)
        (admitted.resolve_left more)
    refine ⟨.discarded (.ok ()), later, ?_, ?_⟩
    · simp only [apply, discard, CircularBuffer.discard, if_neg more, hashed, some_bind]
      rfl
    · rw [History.after, if_neg (by omega)]
      exact laterTracks

theorem apply_tracks (admitted : buffer.Admits history operation) :
    ∃ answer later, buffer.apply operation = some (answer, later) ∧
      Tracks later (history.after operation answer) := by
  cases operation with
  | write bytes => exact write_tracks tracks bytes
  | read size memory => exact read_tracks tracks admitted
  | discard size memory => exact discard_tracks tracks admitted
  | find maxLength minLength =>
    obtain ⟨pos, short, fresh⟩ := admitted
    obtain ⟨result, searched, _⟩ := findCopyInSeekback_found tracks pos short fresh
    refine ⟨.found result, buffer, ?_, tracks⟩
    simp [apply, searched]

end

end

/-- What can be said about the searches of a buffer with its history. -/
structure Searches (buffer : SearchableCircularBuffer) (history : History) : Prop where
  unread : buffer.usedSpace = history.unread
  continues : ∀ operation, buffer.Admits history operation →
    ∃ answer later, buffer.apply operation = some (answer, later)
  sound : ∀ {maxLength minLength found later},
    buffer.Admits history (.find maxLength minLength) →
    buffer.apply (.find maxLength minLength) = some (.found (some found), later) →
    minLength ≤ found.length ∧ found.length ≤ maxLength ∧
      IsMatch buffer history.log history.consumed found
  complete : ∀ {maxLength minLength distance length},
    buffer.Admits history (.find maxLength minLength) →
    hashChunkSize ≤ length → length ≤ maxLength →
    IsMatch buffer history.log history.consumed ⟨distance, length⟩ →
    ∃ found later, buffer.apply (.find maxLength minLength) =
        some (.found (some found), later) ∧ length ≤ found.length

theorem Tracks.searches (tracks : Tracks buffer history) : Searches buffer history where
  unread := tracks.unread_eq.symm
  continues := by
    intro operation admitted
    obtain ⟨answer, later, applied, _⟩ := apply_tracks tracks admitted
    exact ⟨answer, later, applied⟩
  sound := by
    intro maxLength minLength found later admitted applied
    obtain ⟨pos, short, fresh⟩ := admitted
    obtain ⟨result, searched, sound, _⟩ := findCopyInSeekback_found tracks pos short fresh
    simp only [apply, searched, some_bind] at applied
    cases applied
    obtain ⟨isMatch, low, high⟩ := sound found rfl
    exact ⟨low, high, isMatch⟩
  complete := by
    intro maxLength minLength distance length admitted long less isMatch
    obtain ⟨pos, short, fresh⟩ := admitted
    obtain ⟨result, searched, _, finds⟩ := findCopyInSeekback_found tracks pos short fresh
    obtain ⟨found, rfl, longer⟩ := finds _ isMatch long less
    exact ⟨found, buffer, by simp [apply, searched], longer⟩

/-- In every run whose operations are admitted, the searches return and find
what there is. -/
theorem run_searches {memory : List UInt8} {history : History}
    {buffer : SearchableCircularBuffer} (positive : 0 < memory.length)
    (run : Run Admits memory buffer history) : Searches buffer history := by
  have tracks : Tracks buffer history := by
    induction run with
    | start created =>
      cases created
      refine ⟨⟨positive, holds_nil _, ?_, rfl, Nat.zero_le _, Nat.zero_le _, ?_⟩,
        ⟨fun _ => rfl, ?_⟩, ?_, ?_⟩
      · exact (Nat.zero_mod _).symm
      · exact (Nat.min_zero _).symm
      · intro offset bound
        cases bound
      · intro never
        cases never
      · intro offset _ low
        simp only [hashChunkSize] at low
        omega
    | step run admitted applied ih =>
      obtain ⟨answer, later, same, laterTracks⟩ := apply_tracks ih admitted
      rw [applied] at same
      cases same
      exact laterTracks
  exact tracks.searches

/-- All memory is granted. -/
def granted (_ : Nat) : Bool × Bool := (true, true)

def eightBytes : List UInt8 := [0, 0, 0, 0, 0, 0, 0, 0]

/-- Three bytes are written twice, and the first three are read. -/
theorem run_searches_repeated : ∃ buffer, Run Admits eightBytes buffer ⟨[1, 2, 3, 1, 2, 3], 3⟩ ∧
      Searches buffer ⟨[1, 2, 3, 1, 2, 3], 3⟩ ∧
      ∃ later, buffer.apply (.find 8 1) = some (.found (some ⟨3, 3⟩), later) := by
  have first : Run Admits eightBytes _ ⟨[1, 2, 3, 1, 2, 3], 0⟩ :=
    @Run.step _ _ _ _ ⟨[], 0⟩ (.write [1, 2, 3, 1, 2, 3]) (.written 6) (.start rfl) trivial rfl
  have second : Run Admits eightBytes _ ⟨[1, 2, 3, 1, 2, 3], 3⟩ :=
    @Run.step _ _ _ _ ⟨[1, 2, 3, 1, 2, 3], 0⟩ (.read 3 granted) (.bytes (.ok [1, 2, 3])) first
      (.inr ⟨by decide, by decide, by decide, fun _ => rfl⟩) rfl
  exact ⟨_, second, run_searches (by decide) second, _, rfl⟩

def Anything (_ : SearchableCircularBuffer) (_ : History) (_ : Operation) : Prop := True

/-- A first read of the whole buffer fails, so does a search by the hash of a
chunk that was overwritten, and a search for five bytes finds three. -/
theorem not_searches_of_run : (∃ buffer history, Run Anything eightBytes buffer history ∧
      buffer.apply (.read 8 granted) = none) ∧
    (∃ buffer history, Run Anything eightBytes buffer history ∧ buffer.apply (.find 8 3) = none) ∧
    ∃ buffer history later, Run Anything (0 :: eightBytes) buffer history ∧
      buffer.apply (.find 5 5) = some (.found (some ⟨4, 3⟩), later) := by
  refine ⟨?_, ?_, ?_⟩
  · have first := @Run.step Anything eightBytes _ _ ⟨[], 0⟩
      (.write [1, 2, 3, 4, 1, 2, 3, 4]) (.written 8) (.start rfl) trivial rfl
    exact ⟨_, _, first, rfl⟩
  · have first := @Run.step Anything eightBytes _ _ ⟨[], 0⟩
      (.write [1, 2, 3, 4, 1, 2, 3, 4]) (.written 8) (.start rfl) trivial rfl
    have second := @Run.step Anything eightBytes _ _ _ (.read 4 granted)
      (.bytes (.ok [1, 2, 3, 4])) first trivial rfl
    have third := @Run.step Anything eightBytes _ _ _
      (.write [5, 6, 7, 8]) (.written 4) second trivial rfl
    exact ⟨_, _, third, rfl⟩
  · have first := @Run.step Anything (0 :: eightBytes) _ _ ⟨[], 0⟩
      (.write [1, 2, 3, 9, 1, 2, 3, 4, 5]) (.written 9) (.start rfl) trivial
      rfl
    have second := @Run.step Anything (0 :: eightBytes) _ _ _
      (.read 4 granted) (.bytes (.ok [1, 2, 3, 9])) first trivial rfl
    exact ⟨_, _, _, second, rfl⟩

end SearchableCircularBuffer

end MixUpOS.AK
