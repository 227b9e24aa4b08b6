import MixUpOS.AK.CircularBufferHistory

/-!
# Runs of operations on a circular buffer

Every run of a circular buffer is a run of a queue of bounded size that keeps
its history: the operations have the same answers.
-/

namespace MixUpOS.AK

open Library.RingLogs

namespace CircularBuffer

inductive Operation where
  | write (bytes : List UInt8)
  | read (size : Nat)
  | discard (size : Nat)
  | fillFromStream (stream : ReadStream)
  | flushToStream (stream : WriteStream)
  | copyFromSeekback (distance length : Nat)

inductive Answer where
  | written (count : Nat)
  | bytes (bytes : List UInt8)
  | discarded (result : Except StreamError Unit)
  | moved (result : Except StreamError Nat)

def apply (buffer : CircularBuffer) : Operation → Option (Answer × CircularBuffer)
  | .write bytes => do
      let (count, buffer) ← buffer.write (.outside bytes)
      return (.written count, buffer)
  | .read size => do
      let (bytes, buffer) ← buffer.read size
      return (.bytes bytes, buffer)
  | .discard size =>
    let (result, buffer) := buffer.discard size
    some (.discarded result, buffer)
  | .fillFromStream stream => do
      let (result, buffer) ← buffer.fillFromStream stream
      return (.moved result, buffer)
  | .flushToStream stream => do
      let (result, buffer) ← buffer.flushToStream stream
      return (.moved result, buffer)
  | .copyFromSeekback distance length => do
      let (result, buffer) ← buffer.copyFromSeekback distance length
      return (.moved result, buffer)

/-- A run with its operations and answers. -/
inductive Run (admits : CircularBuffer → Operation → Prop) (start : CircularBuffer) :
    List (Operation × Answer) → CircularBuffer → Prop where
  | start : Run admits start [] start
  | step {trace : List (Operation × Answer)} {buffer later : CircularBuffer}
      {operation : Operation} {answer : Answer}
      (run : Run admits start trace buffer)
      (admitted : admits buffer operation)
      (applied : buffer.apply operation = some (answer, later)) :
      Run admits start (trace ++ [(operation, answer)]) later

/-- A queue of bounded size: all bytes that were ever in it, of which the first
were there from the start, and how many of them have left it. -/
structure Fifo where
  capacity : Nat
  initial : Nat
  log : List UInt8
  consumed : Nat

namespace Fifo

def unread (fifo : Fifo) : List UInt8 := fifo.log.drop fifo.consumed

def space (fifo : Fifo) : Nat := fifo.capacity - fifo.unread.length

/-- How far the history reaches back. -/
def limit (fifo : Fifo) : Nat := min fifo.capacity (fifo.log.length - fifo.initial)

def push (fifo : Fifo) (bytes : List UInt8) : Fifo := { fifo with log := fifo.log ++ bytes }

def pop (fifo : Fifo) (count : Nat) : Fifo := { fifo with consumed := fifo.consumed + count }

/-- An operation with its answer. -/
inductive Step : Fifo → Operation → Answer → Fifo → Prop where
  | write {fifo : Fifo} (bytes : List UInt8) :
      Step fifo (.write bytes) (.written (min bytes.length fifo.space))
        (fifo.push (bytes.take fifo.space))
  | read {fifo : Fifo} (size : Nat) : Step fifo (.read size) (.bytes (fifo.unread.take size))
        (fifo.pop (min size fifo.unread.length))
  | discard {fifo : Fifo} {size : Nat} (less : size ≤ fifo.unread.length) :
      Step fifo (.discard size) (.discarded (.ok ())) (fifo.pop size)
  | discardTooMuch {fifo : Fifo} {size : Nat} (more : fifo.unread.length < size) :
      Step fifo (.discard size) (.discarded (.error (.stringLiteral
        "Can not discard more data than what the buffer contains"))) fifo
  | fill {fifo : Fifo} {stream : ReadStream} {size : Nat}
      {bytes : List UInt8} (positive : 0 < size) (less : size ≤ fifo.space)
      (answered : stream.readSome size = .ok bytes) :
      Step fifo (.fillFromStream stream) (.moved (.ok bytes.length)) (fifo.push bytes)
  | fillFails {fifo : Fifo} {stream : ReadStream} {size : Nat}
      {error : StreamError} (positive : 0 < size) (less : size ≤ fifo.space)
      (answered : stream.readSome size = .error error) :
      Step fifo (.fillFromStream stream) (.moved (.error error)) fifo
  | fillFull {fifo : Fifo} {stream : ReadStream} (full : fifo.space = 0) :
      Step fifo (.fillFromStream stream) (.moved (.ok 0)) fifo
  | flush {fifo : Fifo} {stream : WriteStream} {size count : Nat}
      (positive : 0 < size) (less : size ≤ fifo.unread.length)
      (answered : stream.writeSome (fifo.unread.take size) = .ok count) :
      Step fifo (.flushToStream stream) (.moved (.ok count)) (fifo.pop count)
  | flushFails {fifo : Fifo} {stream : WriteStream} {size : Nat}
      {error : StreamError} (positive : 0 < size)
      (less : size ≤ fifo.unread.length)
      (answered : stream.writeSome (fifo.unread.take size) = .error error) :
      Step fifo (.flushToStream stream) (.moved (.error error)) fifo
  | flushEmpty {fifo : Fifo} {stream : WriteStream} (isEmpty : fifo.unread = []) :
      Step fifo (.flushToStream stream) (.moved (.ok 0)) fifo
  | copy {fifo : Fifo} {distance length : Nat} {log : List UInt8}
      (positive : 0 < distance) (near : distance ≤ fifo.limit)
      (copies : Copies distance fifo.log log)
      (grown : log.length = fifo.log.length + min length fifo.space) :
      Step fifo (.copyFromSeekback distance length)
        (.moved (.ok (min length fifo.space))) { fifo with log := log }
  | copyNothing {fifo : Fifo} (length : Nat) :
      Step fifo (.copyFromSeekback 0 length) (.moved (.ok 0)) fifo
  | copyTooFar {fifo : Fifo} {distance length : Nat} (far : fifo.limit < distance) :
      Step fifo (.copyFromSeekback distance length) (.moved (.error (.stringLiteral
          "Tried a seekback copy beyond the seekback limit"))) fifo

/-- A run with its operations and answers. -/
inductive Run (start : Fifo) : List (Operation × Answer) → Fifo → Prop where
  | start : Run start [] start
  | step {trace : List (Operation × Answer)} {fifo later : Fifo}
      {operation : Operation} {answer : Answer}
      (run : Run start trace fifo)
      (next : Step fifo operation answer later) :
      Run start (trace ++ [(operation, answer)]) later

end Fifo

/-- The buffer represents the queue. -/
def Refines (buffer : CircularBuffer) (fifo : Fifo) : Prop :=
  buffer.capacity = fifo.capacity ∧ Represents buffer fifo.initial fifo.log fifo.consumed

/-- Copies are not longer than the buffer. -/
def Admits (buffer : CircularBuffer) : Operation → Prop
  | .copyFromSeekback _ length => length ≤ buffer.capacity
  | _ => True

section

variable {buffer later : CircularBuffer} {fifo : Fifo}

theorem Refines.unread_length (refines : Refines buffer fifo) :
    fifo.unread.length = buffer.usedSpace := by
  have used := refines.2.used
  rw [Fifo.unread, List.length_drop]
  omega

theorem Refines.space_eq (refines : Refines buffer fifo) : fifo.space = buffer.emptySpace := by
  rw [Fifo.space, refines.unread_length, ← refines.1, emptySpace]

theorem Refines.slice_eq (fifo : Fifo) (size : Nat) :
    slice fifo.log fifo.consumed size = fifo.unread.take size := rfl

theorem take_min {list : List UInt8} (size : Nat) :
    list.take (min size list.length) = list.take size := by
  rw [List.take_eq_take_iff]
  omega

/-- An operation returns, with an answer of the queue. -/
def Serves (buffer : CircularBuffer) (fifo : Fifo) (operation : Operation) : Prop :=
  ∃ answer later next, buffer.apply operation = some (answer, later) ∧
    Fifo.Step fifo operation answer next ∧ Refines later next

section

variable (refines : Refines buffer fifo)

include refines

theorem write_refines (bytes : List UInt8) : Serves buffer fifo (.write bytes) := by
  obtain ⟨later, written, capacity, models⟩ :=
    @Represents.write _ _ _ _ bytes (.outside bytes) refines.2 rfl
  rw [← refines.space_eq] at written
  refine ⟨.written (min bytes.length fifo.space), later,
    fifo.push (bytes.take fifo.space), by simp [apply, written],
    .write bytes, ?_⟩
  · refine ⟨capacity.trans refines.1, ?_⟩
    rw [Nat.min_comm, take_min, ← refines.space_eq] at models
    exact models

theorem read_refines (size : Nat) : Serves buffer fifo (.read size) := by
  obtain ⟨later, read, capacity, models⟩ := refines.2.read size
  rw [Refines.slice_eq, ← refines.unread_length] at read
  refine ⟨.bytes (fifo.unread.take size), later,
    fifo.pop (min size fifo.unread.length), by simp [apply, read],
    .read size, ?_⟩
  · refine ⟨capacity.trans refines.1, ?_⟩
    rw [refines.unread_length]
    exact models

theorem discard_refines (size : Nat) : Serves buffer fifo (.discard size) := by
  have used := refines.unread_length
  by_cases more : buffer.usedSpace < size
  · refine ⟨_, buffer, fifo, ?_, .discardTooMuch (by omega), refines⟩
    simp [apply, discard, more]
  refine ⟨.discarded (.ok ()), { buffer with
    usedSpace := buffer.usedSpace - size
    readingHead := (buffer.readingHead + size) % buffer.capacity },
    fifo.pop size, ?_, .discard (by omega), refines.1,
    refines.2.consume (by omega) rfl rfl rfl rfl⟩
  simp [apply, discard, more]

theorem fillFromStream_refines (stream : ReadStream) :
    Serves buffer fifo (.fillFromStream stream) := by
  have placeBound := Nat.mod_lt fifo.log.length refines.2.positive
  have space := refines.space_eq
  have next := refines.2.nextWriteSpan_eq
  generalize room : min buffer.emptySpace (buffer.capacity -
    fifo.log.length % buffer.capacity) = size at next
  by_cases full : size = 0
  · refine ⟨.moved (.ok 0), buffer, fifo, ?_, .fillFull (by omega), refines⟩
    simp [apply, fillFromStream, next, full]
  cases answered : stream.readSome size with
  | error error =>
    refine ⟨.moved (.error error), buffer, fifo, ?_,
      .fillFails (by omega) (by omega) answered, refines⟩
    simp [apply, fillFromStream, next, full, answered]
  | ok bytes =>
    have bounded := stream.bounded answered
    refine ⟨.moved (.ok bytes.length), buffer.append (fifo.log.length % buffer.capacity) bytes,
      fifo.push bytes, ?_,
      .fill (by omega) (by omega) answered, ?_, ?_⟩
    · simp only [apply, fillFromStream, next, full, answered, if_false, some_bind]
      rfl
    · rw [append_capacity _ _ _ (by omega)]
      exact refines.1
    · exact refines.2.append (by omega) (by omega)

theorem flushToStream_refines (stream : WriteStream) :
    Serves buffer fifo (.flushToStream stream) := by
  have placeBound := Nat.mod_lt fifo.consumed refines.2.positive
  have unread := refines.unread_length
  have used := refines.2.used
  have bound := refines.2.bound
  have next := @Represents.nextReadSpan_eq _ _ _ _ refines.2 0 (.inl rfl)
  rw [Nat.add_zero] at next
  generalize room : min (buffer.capacity - fifo.consumed % buffer.capacity)
    buffer.usedSpace = size at next
  by_cases isEmpty : size = 0
  · refine ⟨.moved (.ok 0), buffer, fifo, ?_, .flushEmpty ?_, refines⟩
    · simp [apply, flushToStream, next, isEmpty]
    · exact List.length_eq_zero_iff.mp (by omega)
  · have read := @Represents.bytes_eq _ _ _ _ refines.2 fifo.consumed size
      (by omega) (by omega) (by omega)
    rw [Refines.slice_eq] at read
    cases answered : stream.writeSome (fifo.unread.take size) with
    | error error =>
      refine ⟨.moved (.error error), buffer, fifo, ?_,
        .flushFails (by omega) (by omega) answered, refines⟩
      simp [apply, flushToStream, next, isEmpty, read, answered]
    | ok count =>
      have bounded := stream.bounded answered
      rw [List.length_take] at bounded
      refine ⟨.moved (.ok count), buffer.advance count, fifo.pop count, ?_,
        .flush (by omega) (by omega) answered, refines.1,
        refines.2.advance (by omega)⟩
      simp only [apply, flushToStream, next, isEmpty, if_false, read, answered, some_bind]
      rfl

end

/-- As many bytes are appended as fit, each the one that stands `distance` bytes
before it in the log. -/
def CopyAppends (buffer : CircularBuffer) (fifo : Fifo) (distance length : Nat) : Prop :=
  ∃ later log,
    buffer.copyFromSeekback distance length = some (.ok (min length buffer.emptySpace), later) ∧
    Refines later { fifo with log := log } ∧ Copies distance fifo.log log ∧
    log.length = fifo.log.length + min length buffer.emptySpace

section

variable (refines : Refines buffer fifo)

include refines

/-- The copy does what it should if it ends before the distance is doubled
beyond the capacity, and fails otherwise. -/
theorem copyFromSeekback_eq (pos : 0 < distance) (near : distance ≤ buffer.seekbackLimit)
    (length : Nat) :
    CopyEnds buffer.capacity ((fifo.log.length - distance) % buffer.capacity) distance length
        buffer.emptySpace ∧ buffer.CopyAppends fifo distance length ∨
    ¬ CopyEnds buffer.capacity ((fifo.log.length - distance) % buffer.capacity) distance length
        buffer.emptySpace ∧ buffer.copyFromSeekback distance length = none := by
  rw [CopyAppends]
  rw [copyFromSeekback, if_neg (Nat.not_lt.mpr near)]
  rcases copyLoop_represents refines.2 pos near (Nat.lt_succ_self length) with
    ⟨ends, later, log, copied, capacity, models, result, grown⟩ | ⟨beyond, fails⟩
  · refine .inl ⟨ends, later, log, ?_, ⟨capacity.trans refines.1, models⟩, result, grown⟩
    rw [copied]
    have counted : length - (length - min length buffer.emptySpace) =
        min length buffer.emptySpace := by omega
    simp [counted]
  · exact .inr ⟨beyond, by rw [fails]; rfl⟩

theorem copyFromSeekback_refines (ends : 0 < distance → distance ≤ buffer.seekbackLimit →
      CopyEnds buffer.capacity ((fifo.log.length - distance) % buffer.capacity) distance length
        buffer.emptySpace) : Serves buffer fifo (.copyFromSeekback distance length) := by
  have limit : fifo.limit = buffer.seekbackLimit := by
    rw [Fifo.limit, ← refines.1, refines.2.seekback]
  have space := refines.space_eq
  by_cases far : buffer.seekbackLimit < distance
  · refine ⟨_, buffer, fifo, ?_, .copyTooFar (by omega), refines⟩
    simp [apply, copyFromSeekback, far]
  by_cases still : distance = 0
  · subst still
    refine ⟨.moved (.ok 0), buffer, fifo, ?_, .copyNothing length, refines⟩
    have next := refines.2.nextSeekbackSpan_eq (Nat.zero_le _)
    rw [Nat.min_zero] at next
    have copied : ∀ fuel, copyLoop (fuel + 1) buffer 0 length = some (length, buffer) := by
      intro fuel
      rw [copyLoop, next]
      split_ifs <;> rfl
    simp [apply, copyFromSeekback, copied]
  · obtain ⟨later, log, copied, result, copies, grown⟩ :=
      ((copyFromSeekback_eq refines (by omega) (by omega) length).resolve_right
        fun fails => fails.1 (ends (by omega) (by omega))).2
    rw [← space] at copied grown
    exact ⟨.moved (.ok (min length fifo.space)), later, _, by simp [apply, copied],
      .copy (by omega) (by omega) copies grown, result⟩

theorem apply_refines (admitted : buffer.Admits operation) : Serves buffer fifo operation := by
  cases operation with
  | write bytes => exact write_refines refines bytes
  | read size => exact read_refines refines size
  | discard size => exact discard_refines refines size
  | fillFromStream stream => exact fillFromStream_refines refines stream
  | flushToStream stream => exact flushToStream_refines refines stream
  | copyFromSeekback distance length =>
    refine copyFromSeekback_refines refines fun pos near => ?_
    exact copyEnds_of_le pos (Nat.le_trans near refines.2.seekbackLimit_le)
      (.inr (.inl admitted))

theorem Refines.step (applied : buffer.apply operation = some (answer, later)) :
    ∃ next, Fifo.Step fifo operation answer next ∧ Refines later next := by
  have returned : Serves buffer fifo operation := by
    by_cases admitted : buffer.Admits operation
    · exact apply_refines refines admitted
    cases operation with
    | copyFromSeekback distance length =>
      refine copyFromSeekback_refines refines fun pos near => ?_
      rcases copyFromSeekback_eq refines pos near length with ⟨ends, _⟩ | ⟨_, fails⟩
      · exact ends
      · simp [apply, fails] at applied
    | _ => exact absurd trivial admitted
  obtain ⟨same, after, next, isApplied, step, result⟩ := returned
  rw [applied] at isApplied
  cases isApplied
  exact ⟨next, step, result⟩

end

end

/-- A buffer as it is created, and the queue that it starts as. -/
inductive Created : CircularBuffer → Fifo → Prop where
  | empty {memory : List UInt8} {buffer : CircularBuffer} (positive : 0 < memory.length)
      (created : createEmpty (some memory) = .ok buffer) :
      Created buffer ⟨memory.length, 0, [], 0⟩
  | initialized {bytes : List UInt8} (positive : 0 < bytes.length) :
      Created (createInitialized bytes) ⟨bytes.length, bytes.length, bytes, 0⟩

theorem Created.refines {buffer : CircularBuffer} (created : Created buffer fifo) :
    Refines buffer fifo := by
  cases created with
  | empty pos created =>
    cases created
    refine ⟨rfl, pos, holds_nil _, ?_, rfl, Nat.zero_le _, Nat.zero_le _, ?_⟩
    · exact (Nat.zero_mod _).symm
    · exact (Nat.min_zero _).symm
  | initialized pos =>
    refine ⟨rfl, pos, holds_self _, rfl, ?_, Nat.le_refl _, Nat.le_refl _, ?_⟩
    · exact Nat.zero_add _
    · simp [createInitialized]

/-- What a buffer answers and counts, by the queue that it is. -/
structure IsFifo (buffer : CircularBuffer) (fifo : Fifo) : Prop where
  used : buffer.usedSpace = fifo.unread.length
  spaces : buffer.usedSpace + buffer.emptySpace = buffer.capacity
  seekback : buffer.seekbackLimit ≤ buffer.capacity
  unreadInHistory : fifo.initial ≤ fifo.consumed → buffer.usedSpace ≤ buffer.seekbackLimit
  history : ∀ size distance, distance ≤ buffer.seekbackLimit →
    buffer.readWithSeekback size distance =
      some (.ok ((fifo.log.drop (fifo.log.length - distance)).take (min size distance)))
  continues : ∀ operation, buffer.Admits operation →
    ∃ answer later, buffer.apply operation = some (answer, later)

theorem Refines.isFifo {buffer : CircularBuffer} (refines : Refines buffer fifo) :
    IsFifo buffer fifo where
  used := refines.unread_length.symm
  spaces := by
    have bound := refines.2.bound
    rw [emptySpace]
    omega
  seekback := refines.2.seekbackLimit_le
  unreadInHistory := by
    intro old
    have used := refines.2.used
    have bound := refines.2.bound
    rw [refines.2.seekback]
    omega
  history := fun size _ near => refines.2.readWithSeekback near size
  continues := by
    intro operation admitted
    obtain ⟨answer, later, _, applied, _⟩ := apply_refines refines admitted
    exact ⟨answer, later, applied⟩

theorem Run.refines {start buffer : CircularBuffer} (created : Created start fifo)
    (run : Run admits start trace buffer) :
    ∃ later, Fifo.Run fifo trace later ∧ Refines buffer later := by
  induction run with
  | start => exact ⟨fifo, .start, created.refines⟩
  | step _ _ applied ih =>
    obtain ⟨middle, fifoRun, refines⟩ := ih
    obtain ⟨later, step, laterRefines⟩ := refines.step applied
    exact ⟨later, .step fifoRun step, laterRefines⟩

def fourBytes : CircularBuffer := ⟨[0, 0, 0, 0], 0, 0, 0⟩

theorem fourBytes_created : Created fourBytes ⟨4, 0, [], 0⟩ :=
  @Created.empty [0, 0, 0, 0] fourBytes (by decide) rfl

def Anything (_ : CircularBuffer) (_ : Operation) : Prop := True

end CircularBuffer

end MixUpOS.AK
