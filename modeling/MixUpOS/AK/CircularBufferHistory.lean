import MixUpOS.AK.CircularBuffer

/-!
# Circular buffers as queues with a history

All bytes that were ever written to a buffer are its log, and the first of
them have been consumed.  The buffer holds the end of the log; the bytes that
are not consumed yet are among those, and the seekback limit tells how many
more can be read again.
-/

namespace MixUpOS.AK

open Library.RingLogs Nat

namespace CircularBuffer

/-- The buffer with a log of which the first bytes were there from the start,
and of which some bytes have been consumed. -/
structure Represents (buffer : CircularBuffer) (initial : Nat)
    (log : List UInt8) (consumed : Nat) : Prop where
  positive : 0 < buffer.capacity
  holds : Holds buffer.buffer log
  head : buffer.readingHead = consumed % buffer.capacity
  used : consumed + buffer.usedSpace = log.length
  bound : buffer.usedSpace ≤ buffer.capacity
  initial_le : initial ≤ log.length
  seekback : buffer.seekbackLimit = min buffer.capacity (log.length - initial)

section

variable (buffer : CircularBuffer) (offset : Nat) (bytes : List UInt8)

theorem append_capacity (fits : offset + bytes.length ≤ buffer.capacity) :
    (buffer.append offset bytes).capacity = buffer.capacity :=
  overwrite_length fits

@[simp] theorem append_usedSpace :
    (buffer.append offset bytes).usedSpace = buffer.usedSpace + bytes.length := rfl

theorem slice_span (inside : start + length ≤ buffer.capacity) :
    buffer.span.slice start length = some ⟨start, length⟩ := by
  simp [Span.slice, span, inside]

end

namespace Represents

variable {buffer : CircularBuffer} {log bytes : List UInt8}

section

variable (models : Represents buffer initial log consumed)

include models

theorem head_lt : buffer.readingHead < buffer.capacity := by
  rw [models.head]
  exact mod_lt _ models.positive

theorem seekbackLimit_le : buffer.seekbackLimit ≤ buffer.capacity := by
  rw [models.seekback]
  exact min_le_left _ _

theorem seekbackLimit_le_length : buffer.seekbackLimit ≤ log.length := by
  rw [models.seekback]
  omega

theorem mod_of_head (near : (consumed + offset) % buffer.capacity =
      number % buffer.capacity) (low : offset ≤ buffer.capacity) :
    number % buffer.capacity =
      if buffer.capacity ≤ buffer.readingHead + offset
      then buffer.readingHead + offset - buffer.capacity
      else buffer.readingHead + offset := by
  have headBound := models.head_lt
  rw [← near, ← mod_add_mod, ← models.head]
  split_ifs with wraps
  · rw [mod_eq_sub_mod wraps, mod_eq_of_lt (by omega)]
  · exact mod_eq_of_lt (by omega)

theorem nextWriteSpan_eq :
    buffer.nextWriteSpan = some ⟨log.length % buffer.capacity, min buffer.emptySpace
        (buffer.capacity - log.length % buffer.capacity)⟩ := by
  have headBound := models.head_lt
  have usedBound := models.bound
  have place := models.mod_of_head (congrArg (· % buffer.capacity) models.used) usedBound
  rw [nextWriteSpan, isWrappingAround]
  split_ifs at place with wraps
  · simp only [wraps, decide_true, if_true]
    rw [buffer.slice_span (by omega), place, emptySpace]
    congr 2
    omega
  · simp only [wraps, decide_false, Bool.false_eq_true, if_false]
    rw [buffer.slice_span (by omega), place, emptySpace]
    congr 2
    omega

theorem nextReadSpan_eq (inside : offset = 0 ∨ offset < buffer.usedSpace) :
    buffer.nextReadSpan offset = some ⟨(consumed + offset) % buffer.capacity,
        min (buffer.capacity - (consumed + offset) % buffer.capacity)
          (buffer.usedSpace - offset)⟩ := by
  have placeBound := mod_lt (consumed + offset) models.positive
  have place : (buffer.readingHead + offset) % buffer.capacity =
      (consumed + offset) % buffer.capacity := by
    rw [models.head, mod_add_mod]
  rw [nextReadSpan]
  by_cases start : offset = 0
  · subst start
    rw [if_neg (Nat.lt_irrefl 0), Nat.add_zero, ← models.head]
    exact buffer.slice_span (by have := models.head_lt; omega)
  · rw [if_pos (by omega), if_neg (by omega), place]
    exact buffer.slice_span (by omega)

theorem back_mod (near : distance ≤ buffer.capacity) (inLog : distance ≤ consumed + extra) :
    (buffer.capacity + buffer.readingHead + extra - distance) %
        buffer.capacity = (consumed + extra - distance) % buffer.capacity := by
  have split : consumed = buffer.capacity * (consumed / buffer.capacity) + buffer.readingHead := by
    rw [models.head, div_add_mod]
  have total : buffer.capacity * (consumed / buffer.capacity) +
      (buffer.capacity + buffer.readingHead + extra - distance) =
        buffer.capacity + (consumed + extra - distance) := by
    omega
  rw [← mul_add_mod buffer.capacity (consumed / buffer.capacity), total, add_mod_left]

theorem seekback_offset (near : distance ≤ buffer.seekbackLimit) :
    (buffer.capacity + buffer.readingHead + buffer.usedSpace - distance) % buffer.capacity =
      (log.length - distance) % buffer.capacity := by
  have limit := models.seekbackLimit_le
  have inLog := models.seekbackLimit_le_length
  have used := models.used
  rw [← used]
  exact models.back_mod (by omega) (by omega)

theorem nextSeekbackSpan_eq (near : distance ≤ buffer.seekbackLimit) :
    buffer.nextSeekbackSpan distance = some ⟨(log.length - distance) % buffer.capacity,
        min (buffer.capacity - (log.length - distance) % buffer.capacity) distance⟩ := by
  have limit := models.seekbackLimit_le
  have placeBound := mod_lt (log.length - distance) models.positive
  have place := models.seekback_offset near
  simp only [nextSeekbackSpan, limit, near, decide_true, verify_true, some_bind, place]
  exact buffer.slice_span (by omega)

theorem bytes_eq (fits : start % buffer.capacity + length ≤ buffer.capacity)
    (inLog : start + length ≤ log.length) (recent : log.length ≤ start + buffer.capacity) :
    Span.bytes ⟨start % buffer.capacity, length⟩ buffer.buffer = slice log start length :=
  models.holds.slice fits inLog recent

theorem bytes_take (count : Nat) (inLog : start + limit ≤ log.length)
    (recent : log.length ≤ start + buffer.capacity) :
    ∃ size ≤ min limit count, (0 < min limit count → 0 < size) ∧
      (slice log start size).length = size ∧
      (Span.bytes ⟨start % buffer.capacity, min (buffer.capacity - start % buffer.capacity) limit⟩
        buffer.buffer).take count = slice log start size := by
  have bound := mod_lt start models.positive
  refine ⟨min count (min (buffer.capacity - start % buffer.capacity) limit), by omega, by omega,
    slice_length (by omega), ?_⟩
  rw [models.bytes_eq (by omega) (by omega) recent, take_slice]

end

section

variable (models : Represents buffer initial log consumed)

include models

theorem append (space : bytes.length ≤ buffer.emptySpace)
    (fits : log.length % buffer.capacity + bytes.length ≤ buffer.capacity) :
    Represents (buffer.append (log.length % buffer.capacity) bytes) initial
      (log ++ bytes) consumed := by
  have capacity := append_capacity buffer _ bytes fits
  have bound := models.bound
  rw [emptySpace] at space
  constructor
  · rw [capacity]
    exact models.positive
  · exact models.holds.append fits
  · rw [capacity]
    exact models.head
  · rw [append_usedSpace, List.length_append, ← models.used]
    omega
  · rw [append_usedSpace]
    omega
  · rw [List.length_append]
    exact le_add_right_of_le models.initial_le
  · have initial_le := models.initial_le
    have seekback := models.seekback
    rw [capacity, List.length_append]
    simp only [CircularBuffer.append]
    split_ifs with beyond <;> omega

theorem consume {count : Nat} (less : count ≤ buffer.usedSpace)
    (sameBuffer : later.buffer = buffer.buffer)
    (sameLimit : later.seekbackLimit = buffer.seekbackLimit)
    (used : later.usedSpace = buffer.usedSpace - count)
    (head : later.readingHead = (buffer.readingHead + count) % buffer.capacity) :
    Represents later initial log (consumed + count) := by
  have capacity : later.capacity = buffer.capacity := congrArg List.length sameBuffer
  have total := models.used
  have bound := models.bound
  refine ⟨?_, ?_, ?_, ?_, ?_, models.initial_le, ?_⟩
  · rw [capacity]
    exact models.positive
  · rw [sameBuffer]
    exact models.holds
  · rw [head, capacity, models.head, mod_add_mod]
  · omega
  · omega
  · rw [sameLimit, capacity]
    exact models.seekback

theorem advance {count : Nat} (less : count ≤ buffer.usedSpace) :
    Represents (buffer.advance count) initial log (consumed + count) := by
  have bound := models.bound
  have place := models.mod_of_head rfl (le_trans less bound)
  refine models.consume less rfl rfl rfl ?_
  rw [CircularBuffer.advance, models.head, mod_add_mod, place, models.head]

end

end Represents

/-- The source gives the content, also while it is written behind the log. -/
def Supplies (capacity : Nat) (log content : List UInt8) : ReadonlyBytes → Prop
  | .outside bytes => bytes = content
  | .inside span => ∃ start, span = ⟨start % capacity, content.length⟩ ∧
        start % capacity + content.length ≤ capacity ∧
        log.length ≤ start + capacity ∧
        start + content.length ≤ log.length ∧
        content = slice log start content.length

section

variable {buffer : CircularBuffer} {log : List UInt8}

theorem Supplies.size_eq {capacity : Nat} (supplies : Supplies capacity log content source) :
    source.size = content.length := by
  cases source with
  | outside bytes => exact congrArg List.length supplies
  | inside span =>
    obtain ⟨start, rfl, _⟩ := supplies
    rfl

theorem Supplies.rest (supplies : Supplies buffer.capacity log content source) {count : Nat}
    (models : Represents buffer initial (log ++ content.take count) consumed)
    (less : count < content.length) :
    ∃ rest, source.sliceFrom count = some rest ∧ rest.bytes buffer.buffer = content.drop count := by
  cases source with
  | outside bytes =>
    obtain rfl : bytes = content := supplies
    refine ⟨.outside (bytes.drop count), ?_, rfl⟩
    simp [ReadonlyBytes.sliceFrom, le_of_lt less]
  | inside span =>
    obtain ⟨start, rfl, fits, recent, inLog, isSlice⟩ := supplies
    refine ⟨.inside ⟨start % buffer.capacity + count, content.length - count⟩, ?_, ?_⟩
    · simp [ReadonlyBytes.sliceFrom, Span.sliceFrom, le_of_lt less]
    have place := @mod_add buffer.capacity start count (by omega)
    have taken : (content.take count).length = count := by
      rw [List.length_take]
      omega
    have read := @Represents.bytes_eq _ _ _ _ models (start + count)
      (content.length - count) (by omega)
      (by rw [List.length_append]; omega)
      (by rw [List.length_append]; omega)
    rw [place] at read
    rw [ReadonlyBytes.bytes, read, isSlice, drop_slice, ← isSlice]
    apply List.ext_getElem?
    intro index
    rw [slice_getElem?, slice_getElem?]
    split_ifs with inside
    · exact List.getElem?_append_left (by omega)
    · rfl

theorem writeLoop_represents {count : Nat} (supplies : Supplies buffer.capacity log content source)
    (models : Represents buffer initial (log ++ content.take count) consumed)
    (less : count ≤ content.length) (enough : content.length - count < fuel) :
    ∃ total later, writeLoop source fuel buffer (content.length - count) =
        some (content.length - total, later) ∧
      total = count + min (content.length - count) buffer.emptySpace ∧
      later.capacity = buffer.capacity ∧
      Represents later initial (log ++ content.take total) consumed := by
  induction fuel generalizing buffer count with
  | zero => cases enough
  | succ fuel ih =>
    by_cases done : content.length - count = 0
    · refine ⟨count, buffer, ?_, by omega, rfl, models⟩
      simp [writeLoop, done]
    have next := models.nextWriteSpan_eq
    have placeBound := mod_lt (log ++ content.take count).length models.positive
    generalize place : (log ++ content.take count).length %
      buffer.capacity = offset at next
    by_cases full : buffer.emptySpace = 0
    · refine ⟨count, buffer, ?_, by omega, rfl, models⟩
      simp [writeLoop, next, full]
    have some : min buffer.emptySpace (buffer.capacity - offset) ≠ 0 := by omega
    obtain ⟨rest, sliced, isRest⟩ := supplies.rest models (by omega)
    generalize room : min buffer.emptySpace (buffer.capacity - offset) = size at next some
    obtain ⟨moved, isMoved⟩ : ∃ moved, moved = min size (content.length - count) := ⟨_, rfl⟩
    have copied : (content.drop count).take size = (content.drop count).take moved := by
      rw [List.take_eq_take_iff, List.length_drop]
      omega
    have length : ((content.drop count).take moved).length = moved := by
      rw [List.length_take, List.length_drop]
      omega
    have appended := @Represents.append _ _ _ _
      ((content.drop count).take moved) models (by omega)
      (by omega)
    rw [place, List.append_assoc, ← List.take_add] at appended
    have sameCapacity := append_capacity buffer offset
      ((content.drop count).take moved) (by omega)
    have space : (buffer.append offset ((content.drop count).take moved)).emptySpace =
          buffer.emptySpace - moved := by
      rw [emptySpace, append_usedSpace, emptySpace]
      omega
    rw [← sameCapacity] at supplies
    obtain ⟨total, later, written, isTotal, laterCapacity, result⟩ :=
      ih supplies appended (by omega) (by omega)
    refine ⟨total, later, ?_, by omega, laterCapacity.trans sameCapacity, result⟩
    have remaining : content.length - count - moved = content.length - (count + moved) := by omega
    have position : source.size - (content.length - count) = count := by
      rw [supplies.size_eq]
      omega
    simp only [writeLoop, done, if_false, next, some_bind, some, position, sliced, isRest, copied,
      length, remaining, written]

theorem Represents.write (models : Represents buffer initial log consumed)
    (supplies : Supplies buffer.capacity log content source) :
    ∃ later, buffer.write source = some (min content.length buffer.emptySpace, later) ∧
        later.capacity = buffer.capacity ∧
        Represents later initial (log ++ content.take (min content.length buffer.emptySpace))
          consumed := by
  obtain ⟨total, later, written, isTotal, capacity, result⟩ :=
    @writeLoop_represents _ _ _ _ _ _ (content.length + 1) 0 supplies
      (by simpa using models) (zero_le _) (by omega)
  have all : total = min content.length buffer.emptySpace := by omega
  rw [all] at written result
  rw [Nat.sub_zero] at written
  refine ⟨later, ?_, capacity, result⟩
  have counted : content.length - (content.length - min content.length buffer.emptySpace) =
        min content.length buffer.emptySpace := by omega
  simp [CircularBuffer.write, supplies.size_eq, written, counted]

end

section

variable {buffer : CircularBuffer} {log : List UInt8}

theorem readLoop_represents (models : Represents buffer initial log consumed)
    (enough : remaining < fuel) :
    ∃ later, readLoop fuel buffer remaining =
        some (slice log consumed (min remaining buffer.usedSpace), later) ∧
      later.capacity = buffer.capacity ∧
      Represents later initial log (consumed + min remaining buffer.usedSpace) := by
  induction fuel generalizing buffer consumed remaining with
  | zero => cases enough
  | succ fuel ih =>
    have used := models.used
    have bound := models.bound
    by_cases done : remaining = 0
    · subst done
      refine ⟨buffer, ?_, rfl, by simpa using models⟩
      simp [readLoop, slice_zero]
    · have next := @Represents.nextReadSpan_eq _ _ _ _ models 0 (.inl rfl)
      rw [Nat.add_zero, Nat.sub_zero] at next
      by_cases isEmpty : buffer.usedSpace = 0
      · refine ⟨buffer, ?_, rfl, by simpa [isEmpty] using models⟩
        simp [readLoop, next, isEmpty, slice_zero]
      obtain ⟨moved, less, someMoved, length, copied⟩ :=
        @Represents.bytes_take _ _ _ _ models consumed buffer.usedSpace remaining (by omega)
          (by omega)
      obtain ⟨later, rest, capacity, result⟩ := @ih _ _ (remaining - moved)
        (models.advance (show moved ≤ buffer.usedSpace by omega)) (by omega)
      have left : (buffer.advance moved).usedSpace = buffer.usedSpace - moved := rfl
      have total : moved + min (remaining - moved) (buffer.usedSpace - moved) =
          min remaining buffer.usedSpace := by omega
      rw [left] at rest result
      rw [add_assoc, total] at result
      refine ⟨later, ?_, capacity, result⟩
      have placeBound := mod_lt consumed models.positive
      have some : min (buffer.capacity - consumed % buffer.capacity) buffer.usedSpace ≠ 0 := by
        omega
      simp only [readLoop, done, if_false, next, some_bind, some, copied, length, rest]
      rw [slice_append_slice, total]
      rfl

section

variable (models : Represents buffer initial log consumed)

include models

theorem Represents.read (size : Nat) :
    ∃ later, buffer.read size = some (slice log consumed (min size buffer.usedSpace), later) ∧
        later.capacity = buffer.capacity ∧
        Represents later initial log (consumed + min size buffer.usedSpace) :=
  readLoop_represents models (lt_succ_self size)

theorem readWithSeekbackLoop_eq (near : distance ≤ buffer.seekbackLimit)
    (enough : remaining < fuel) :
    readWithSeekbackLoop buffer fuel distance remaining =
      some (slice log (log.length - distance) (min remaining distance)) := by
  have limit := models.seekbackLimit_le
  have inLog := models.seekbackLimit_le_length
  induction fuel generalizing distance remaining with
  | zero => cases enough
  | succ fuel ih =>
    by_cases done : remaining = 0
    · simp [readWithSeekbackLoop, done, slice_zero]
    have next := models.nextSeekbackSpan_eq near
    by_cases still : distance = 0
    · subst still
      simp [readWithSeekbackLoop, next, slice_zero]
    obtain ⟨moved, less, someMoved, length, copied⟩ :=
      @Represents.bytes_take _ _ _ _ models (log.length - distance) distance remaining
        (by omega) (by omega)
    have rest := @ih (distance - moved) (remaining - moved) (by omega) (by omega)
    rw [show log.length - (distance - moved) = log.length - distance + moved by omega] at rest
    have placeBound := mod_lt (log.length - distance) models.positive
    have some : min (buffer.capacity - (log.length - distance) % buffer.capacity) distance ≠ 0 := by
      omega
    simp only [readWithSeekbackLoop, done, if_false, next, some_bind, some, copied, length, rest]
    rw [slice_append_slice, show moved + min (remaining - moved) (distance - moved) =
      min remaining distance by omega]
    rfl

/-- The last bytes of the log are read, whether they are consumed or not. -/
theorem Represents.readWithSeekback (near : distance ≤ buffer.seekbackLimit) (size : Nat) :
    buffer.readWithSeekback size distance =
      some (.ok (slice log (log.length - distance) (min size distance))) := by
  rw [CircularBuffer.readWithSeekback, if_neg (not_lt.mpr near),
    readWithSeekbackLoop_eq models near (lt_succ_self size)]
  rfl

end

end

section

variable {buffer : CircularBuffer} {initial consumed : Nat} {log : List UInt8}

section

variable (models : Represents buffer initial log consumed)

include models

theorem Represents.supplies
    {distance size : Nat} (near : distance ≤ buffer.seekbackLimit) (less : size ≤ distance)
    (fits : (log.length - distance) % buffer.capacity + size ≤ buffer.capacity) :
    Supplies buffer.capacity log (slice log (log.length - distance) size)
      (.inside ⟨(log.length - distance) % buffer.capacity, size⟩) := by
  have limit := models.seekbackLimit_le
  have inLog := models.seekbackLimit_le_length
  have length : (slice log (log.length - distance) size).length = size := slice_length (by omega)
  refine ⟨log.length - distance, ?_, ?_, by omega, ?_, ?_⟩
  · rw [length]
  · rw [length]
    exact fits
  · omega
  · rw [length]

theorem Represents.emptySpace_eq :
    buffer.emptySpace = buffer.capacity - (log.length - consumed) := by
  have used := models.used
  rw [emptySpace]
  omega

/-- What one turn of the loop does. -/
structure CopyTurn (buffer middle : CircularBuffer) (initial consumed : Nat)
    (log middleLog : List UInt8) (distance moved : Nat) : Prop where
  positive : 0 < moved
  space : moved + middle.emptySpace = buffer.emptySpace
  capacity : middle.capacity = buffer.capacity
  models : Represents middle initial middleLog consumed
  copies : Copies distance log middleLog
  length : middleLog.length = log.length + moved
  limit : distance ≤ middle.seekbackLimit
  doubled : moved = distance → distance * 2 ≤ buffer.capacity → distance * 2 ≤ middle.seekbackLimit

theorem copyLoop_turn (pos : 0 < distance)
    (near : distance ≤ buffer.seekbackLimit) (more : remaining ≠ 0) (space : buffer.emptySpace ≠ 0)
    (fuel : Nat) :
    ∃ moved middle middleLog, moved = min (min (min (buffer.capacity -
        (log.length - distance) % buffer.capacity) distance) remaining) buffer.emptySpace ∧
      CopyTurn buffer middle initial consumed log middleLog distance moved ∧
      copyLoop (fuel + 1) buffer distance remaining = copyLoop fuel middle
          (if distance < remaining - moved ∧ moved = distance
            then distance * 2 else distance) (remaining - moved) := by
  have inLog := models.seekbackLimit_le_length
  have next := models.nextSeekbackSpan_eq near
  have placeBound := mod_lt (log.length - distance) models.positive
  generalize room : min (buffer.capacity -
    (log.length - distance) % buffer.capacity) distance = size at next
  have supplies := models.supplies near (show min size remaining ≤ distance by omega) (by omega)
  have length : (slice log (log.length - distance)
      (min size remaining)).length = min size remaining :=
    slice_length (by omega)
  obtain ⟨middle, written, capacity, represented⟩ := models.write supplies
  rw [length] at written represented
  rw [take_slice] at represented
  obtain ⟨moved, isMoved⟩ : ∃ moved, moved = min (min size remaining) buffer.emptySpace := ⟨_, rfl⟩
  have sameSlice : min moved (min size remaining) = moved := by omega
  rw [← isMoved] at written represented
  rw [sameSlice] at represented
  have someSize : size ≠ 0 := by omega
  have someMoved : 0 < moved := by omega
  have movedNear : moved ≤ distance := by omega
  have movedSpace : moved ≤ buffer.emptySpace := by omega
  have grown : (log ++ slice log (log.length - distance) moved).length = log.length + moved := by
    rw [List.length_append, slice_length (by omega)]
  refine ⟨moved, middle, log ++ slice log (log.length - distance) moved, isMoved, ?_, ?_⟩
  · refine ⟨someMoved, ?_, capacity, represented,
      Copies.of_slice movedNear (by omega), grown, ?_, ?_⟩
    · have total := models.used
      rw [models.emptySpace_eq] at movedSpace
      rw [models.emptySpace_eq, represented.emptySpace_eq]
      omega
    · have seekback := models.seekback
      rw [represented.seekback]
      omega
    · intro whole fits
      have seekback := models.seekback
      rw [represented.seekback]
      omega
  · simp [copyLoop, more, space, next, someSize, Span.trim, written]

end

/-! The distance is doubled without regard to the capacity, and the loop fails
if it is to go on with a distance beyond it. -/

/-- The greatest of the doubled distances that is not beyond the capacity. -/
def lastDistance (capacity distance : Nat) : Nat := distance * 2 ^ (capacity / distance).log2

/-- How much is copied until the last distance is doubled.  A source that
reaches the end of the buffer is copied up to there first. -/
def lastCopied (capacity offset distance : Nat) : Nat :=
  2 * lastDistance capacity distance - distance +
    if capacity < offset + lastDistance capacity distance then capacity - offset else 0

/-- The buffer is full or no more than the last distance is left when that is
doubled. -/
def CopyEnds (capacity offset distance length space : Nat) : Prop :=
  space ≤ lastCopied capacity offset distance ∨
    length ≤ lastCopied capacity offset distance + lastDistance capacity distance

section

variable {capacity length : Nat}

theorem lastDistance_double (less : distance * 2 ≤ capacity) :
    lastDistance capacity (distance * 2) = lastDistance capacity distance := by
  rcases Nat.eq_zero_or_pos distance with rfl | pos
  · simp
  · have twice : 2 ≤ capacity / distance := (le_div_iff_mul_le pos).mpr (by omega)
    rw [lastDistance, lastDistance, log2_def (capacity / distance), if_pos twice,
      Nat.div_div_eq_div_mul, Nat.pow_succ, Nat.mul_assoc, Nat.mul_comm 2]

theorem lastDistance_of_lt (beyond : capacity < distance * 2) :
    lastDistance capacity distance = distance := by
  have less : ¬ 2 ≤ capacity / distance := by
    intro twice
    have whole := Nat.mul_le_of_le_div _ _ _ twice
    omega
  rw [lastDistance, Nat.log2_def, if_neg less, Nat.pow_zero, Nat.mul_one]

theorem lastDistance_bounds (pos : 0 < distance) (near : distance ≤ capacity) :
    distance ≤ lastDistance capacity distance ∧ lastDistance capacity distance ≤ capacity ∧
      capacity < 2 * lastDistance capacity distance := by
  induction remaining : capacity - distance using Nat.strong_induction_on generalizing distance with
  | _ remaining ih =>
    by_cases less : distance * 2 ≤ capacity
    · have bounds := ih (capacity - distance * 2) (by omega) (by omega) less rfl
      rw [lastDistance_double less] at bounds
      omega
    · rw [lastDistance_of_lt (by omega)]
      omega

theorem copyEnds_of_le (pos : 0 < distance) (near : distance ≤ capacity)
    (short : length ≤ 2 * distance ∨ length ≤ capacity ∨ space ≤ distance) :
    CopyEnds capacity offset distance length space := by
  obtain ⟨low, high, beyond⟩ := lastDistance_bounds pos near
  unfold CopyEnds lastCopied
  omega

/-- A whole distance is copied and the distance is doubled. -/
theorem copyEnds_double (less : distance * 2 ≤ capacity) (pos : 0 < distance) :
    CopyEnds capacity offset (distance * 2) (length - distance) (space - distance) ↔
      CopyEnds capacity offset distance length space := by
  have low := (lastDistance_bounds (by omega) less).1
  unfold CopyEnds lastCopied
  rw [lastDistance_double less] at low ⊢
  omega

/-- The source is copied up to the end of the buffer. -/
theorem copyEnds_wrap (near : distance ≤ capacity) (pos : 0 < distance)
    (wraps : capacity < offset + distance) :
    CopyEnds capacity 0 distance (length - (capacity - offset)) (space - (capacity - offset)) ↔
      CopyEnds capacity offset distance length space := by
  obtain ⟨low, high, _⟩ := lastDistance_bounds pos near
  unfold CopyEnds lastCopied
  rw [if_neg (by omega), if_pos (by omega)]
  omega

end

/-- As much is copied as there is empty space. -/
def CopyResult (buffer : CircularBuffer) (initial consumed : Nat)
    (log : List UInt8) (distance remaining : Nat) (result : Option (Nat × CircularBuffer)) : Prop :=
  ∃ later laterLog, result = some (remaining - min remaining buffer.emptySpace, later) ∧
    later.capacity = buffer.capacity ∧ Represents later initial laterLog consumed ∧
    Copies distance log laterLog ∧
    laterLog.length = log.length + min remaining buffer.emptySpace

theorem copyResult_done (models : Represents buffer initial log consumed) (fuel : Nat)
    (done : remaining = 0 ∨ buffer.emptySpace = 0) :
    CopyResult buffer initial consumed log distance remaining
      (copyLoop (fuel + 1) buffer next remaining) := by
  refine ⟨buffer, log, ?_, rfl, models, .refl _ _, by omega⟩
  rw [copyLoop]
  split_ifs <;> simp <;> omega

theorem CopyTurn.result {middle : CircularBuffer} {result : Option (Nat × CircularBuffer)}
    (turn : CopyTurn buffer middle initial consumed log middleLog distance moved)
    (less : moved ≤ remaining)
    (copies : ∀ {laterLog}, Copies next middleLog laterLog → Copies distance log laterLog)
    (rest : CopyResult middle initial consumed middleLog next (remaining - moved) result) :
    CopyResult buffer initial consumed log distance remaining result := by
  obtain ⟨later, laterLog, copied, capacity, models, again, length⟩ := rest
  have space := turn.space
  have total : moved + min (remaining - moved) middle.emptySpace =
      min remaining buffer.emptySpace := by omega
  refine ⟨later, laterLog, ?_, capacity.trans turn.capacity, models, copies again, ?_⟩
  · rw [copied, ← total, sub_add_eq]
  · rw [length, turn.length, add_assoc, total]

theorem copyLoop_represents (models : Represents buffer initial log consumed)
    (pos : 0 < distance) (near : distance ≤ buffer.seekbackLimit) (enough : remaining < fuel) :
    CopyEnds buffer.capacity ((log.length - distance) % buffer.capacity) distance remaining
        buffer.emptySpace ∧ CopyResult buffer initial consumed log distance remaining
        (copyLoop fuel buffer distance remaining) ∨
    ¬ CopyEnds buffer.capacity ((log.length - distance) % buffer.capacity) distance remaining
        buffer.emptySpace ∧ copyLoop fuel buffer distance remaining = none := by
  induction fuel generalizing buffer log distance remaining with
  | zero => cases enough
  | succ fuel ih =>
    have inside := le_trans near models.seekbackLimit_le
    by_cases done : remaining = 0 ∨ buffer.emptySpace = 0
    · exact .inl ⟨copyEnds_of_le pos inside (by omega), copyResult_done models fuel done⟩
    · rw [not_or] at done
      obtain ⟨moved, middle, middleLog, isMoved, turn, step⟩ :=
        copyLoop_turn models pos near done.1 done.2 fuel
      have less : moved ≤ remaining := by omega
      have space : middle.emptySpace = buffer.emptySpace - moved := by
        have total := turn.space
        omega
      have length := turn.length
      have someMoved := turn.positive
      rw [step]
      by_cases twice : distance < remaining - moved ∧ moved = distance
      · obtain ⟨long, rfl⟩ := twice
        rw [if_pos ⟨long, rfl⟩]
        by_cases more : moved * 2 ≤ buffer.capacity
        · have rest := @ih _ _ (moved * 2) (remaining - moved)
            turn.models (by omega) (turn.doubled rfl more) (by omega)
          have start : middleLog.length - moved * 2 = log.length - moved := by omega
          rw [turn.capacity, start, space, copyEnds_double more pos] at rest
          refine rest.imp_left (And.imp_right (turn.result less ?_))
          intro laterLog again
          rw [mul_comm] at again
          exact turn.copies.double length again
        · -- The doubled distance is beyond the seekback limit.
          have last := @lastDistance_of_lt buffer.capacity moved (by omega)
          obtain ⟨fuel, rfl⟩ : ∃ less, fuel = less + 1 := ⟨fuel - 1, by omega⟩
          by_cases full : middle.emptySpace = 0
          · exact .inl ⟨copyEnds_of_le pos inside (by omega), turn.result less
              turn.copies.trans (copyResult_done turn.models fuel (.inr full))⟩
          · refine .inr ⟨fun ends => ?_, ?_⟩
            · unfold CopyEnds lastCopied at ends
              rw [if_neg (by omega)] at ends
              omega
            · have limit := turn.models.seekbackLimit_le
              rw [turn.capacity] at limit
              have far : ¬ moved * 2 ≤ middle.seekbackLimit := by omega
              have some : remaining - moved ≠ 0 := by omega
              simp [copyLoop, some, full, nextSeekbackSpan, far, verify]
      · rw [if_neg twice]
        have rest := @ih _ _ distance (remaining - moved)
          turn.models pos turn.limit (by omega)
        rw [turn.capacity, space] at rest
        by_cases wraps : moved = buffer.capacity - (log.length - distance) % buffer.capacity ∧
            moved < distance
        · have start : (middleLog.length - distance) % buffer.capacity = 0 := by
            have split := div_add_mod (log.length - distance) buffer.capacity
            have next : middleLog.length - distance = buffer.capacity *
                ((log.length - distance) / buffer.capacity + 1) := by
              rw [mul_add]
              omega
            rw [next, mul_mod_right]
          rw [start, wraps.1, copyEnds_wrap inside pos (by omega), ← wraps.1] at rest
          exact rest.imp_left (And.imp_right (turn.result less turn.copies.trans))
        · -- No more than two distances or no empty space is left.
          refine .inl ⟨copyEnds_of_le pos inside (by omega),
            turn.result less turn.copies.trans (rest.resolve_right fun fails => ?_).2⟩
          exact fails.1 (copyEnds_of_le pos inside (by omega))

end

end CircularBuffer

end MixUpOS.AK
