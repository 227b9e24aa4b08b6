import MixUpOS.AK.CircularBufferRuns
import MixUpOS.AK.MemMem

/-!
# Searching the unread bytes of a circular buffer

`offset_of` looks for a needle in a part of the unread bytes, which are in up to
two spans.  If the part starts in the second span, that is cut to the length from
its beginning, and reaches behind the part.
-/

namespace MixUpOS.AK

open Library.RingLogs Library.PatternMatching

namespace CircularBuffer

/-- The bytes of the spans that are searched. -/
def searchSpans (buffer : CircularBuffer) (readFrom readUntil : Nat) :
    Option (List (List UInt8)) := do
  let whole ← buffer.nextReadSpan 0
  let first ← (if 0 < readFrom then whole.sliceFrom (min whole.size readFrom) else some whole)
  if readUntil < first.size + readFrom then
    return [(first.trim (readUntil - readFrom)).bytes buffer.buffer, []]
  else if buffer.isWrappingAround then
    let second ← buffer.span.slice (max whole.size readFrom - whole.size)
      (min readUntil buffer.usedSpace - whole.size)
    return [first.bytes buffer.buffer, second.bytes buffer.buffer]
  else return [first.bytes buffer.buffer, []]

def offsetOf (buffer : CircularBuffer) (needle : List UInt8) («from» «until» : Option Nat) :
    Option (Option Nat) := do
  let readFrom := «from».getD 0
  let readUntil := «until».getD buffer.usedSpace
  verify (decide (readFrom ≤ readUntil))
  let spans ← buffer.searchSpans readFrom readUntil
  let found ← memmem spans needle
  return found.map (readFrom + ·)

/-- The first occurrence in a part that starts at an offset is found. -/
def FindsOffset (answer : Option (Option Nat)) (needle part : List UInt8) (readFrom : Nat) : Prop :=
  ∃ found, answer = some (found.map (readFrom + ·)) ∧ IsFirst needle part found

/-- A part of the unread bytes. -/
def part (buffer : CircularBuffer) (unread : List UInt8) (readFrom readUntil : Nat) : List UInt8 :=
  slice unread readFrom (min readUntil buffer.usedSpace - readFrom)

/-- The size of the first span of the unread bytes. -/
def firstSize (buffer : CircularBuffer) : Nat :=
  min (buffer.capacity - buffer.readingHead) buffer.usedSpace

/-- What is cut for a part that starts in the second span. -/
def cutSpan (buffer : CircularBuffer) (readFrom readUntil : Nat) : Span :=
  ⟨readFrom - buffer.firstSize, min readUntil buffer.usedSpace - buffer.firstSize⟩

/-- The indices fit, and if the part starts in the second span, that is cut
within the buffer and does not contain the needle only behind the part. -/
def OffsetFits (buffer : CircularBuffer) (needle part : List UInt8) (readFrom readUntil : Nat) :
    Prop :=
  if buffer.firstSize < readFrom ∧ buffer.isWrappingAround then
    let span := buffer.cutSpan readFrom readUntil
    let bytes := span.bytes buffer.buffer
    span.offset + span.size ≤ buffer.capacity ∧ MemMem.IndexFits needle bytes ∧
      (IsFirst needle part none → IsFirst needle bytes none)
  else MemMem.IndexFits needle part

section

variable {buffer : CircularBuffer} {readFrom readUntil : Nat} (refines : Refines buffer fifo)

include refines

theorem bounds : buffer.readingHead < buffer.capacity ∧ buffer.usedSpace ≤ buffer.capacity ∧
    buffer.firstSize = min (buffer.capacity - buffer.readingHead) buffer.usedSpace ∧
    (buffer.isWrappingAround ↔ buffer.capacity ≤ buffer.readingHead + buffer.usedSpace) :=
  ⟨refines.2.head_lt, refines.2.bound, rfl, decide_eq_true_iff⟩

theorem searchSpans_eq (order : readFrom ≤ readUntil) : buffer.searchSpans readFrom readUntil =
      let span := buffer.cutSpan readFrom readUntil
      if buffer.firstSize < readFrom ∧ buffer.isWrappingAround then
        (buffer.span.slice span.offset span.size).map ([[], ·.bytes buffer.buffer])
      else some [Span.bytes ⟨buffer.readingHead + min buffer.firstSize readFrom,
          min readUntil buffer.firstSize - readFrom⟩ buffer.buffer,
        Span.bytes ⟨0, min readUntil buffer.usedSpace - buffer.firstSize⟩ buffer.buffer] := by
  obtain ⟨headBound, bound, isFirstSize, wrapping⟩ := bounds refines
  have whole : buffer.nextReadSpan 0 = some ⟨buffer.readingHead, buffer.firstSize⟩ := by
    exact buffer.slice_span (by omega)
  have first : (if 0 < readFrom then
      Span.sliceFrom ⟨buffer.readingHead, buffer.firstSize⟩ (min buffer.firstSize readFrom)
      else some ⟨buffer.readingHead, buffer.firstSize⟩) =
        some ⟨buffer.readingHead + min buffer.firstSize readFrom, buffer.firstSize - readFrom⟩ := by
    split_ifs with pos
    · simp [Span.sliceFrom, verify]
      omega
    · simp
      omega
  have start : max buffer.firstSize readFrom - buffer.firstSize =
    readFrom - buffer.firstSize := by omega
  simp only [searchSpans, whole, some_bind, first, Span.trim, start, wrapping, cutSpan]
  by_cases cut : buffer.firstSize < readFrom ∧
      buffer.capacity ≤ buffer.readingHead + buffer.usedSpace
  · rw [if_neg (by omega), if_pos cut.2, if_pos cut, Nat.sub_eq_zero_of_le (Nat.le_of_lt cut.1),
      Option.map_eq_bind]
    rfl
  · have size : buffer.firstSize - readFrom = min readUntil buffer.firstSize - readFrom ∨
      readUntil < buffer.firstSize := by omega
    split_ifs with inFirst wraps
    · rw [show min (buffer.firstSize - readFrom) (readUntil - readFrom) =
        min readUntil buffer.firstSize - readFrom by omega,
        show min readUntil buffer.usedSpace - buffer.firstSize = 0 by omega]
      rfl
    · rw [show readFrom - buffer.firstSize = 0 by omega, buffer.slice_span (by omega),
        size.resolve_right (by omega)]
      rfl
    · rw [size.resolve_right (by omega),
        show min readUntil buffer.usedSpace - buffer.firstSize = 0 by omega]
      rfl

theorem unread_bytes {length place : Nat} (inside : length ≠ 0 →
      (buffer.readingHead + start) % buffer.capacity = place ∧
      place + length ≤ buffer.capacity ∧ start + length ≤ buffer.usedSpace) :
    Span.bytes ⟨place, length⟩ buffer.buffer = slice fifo.unread start length := by
  have used := refines.2.used
  have bound := refines.2.bound
  by_cases isEmpty : length = 0
  · subst isEmpty
    rw [Span.bytes, slice_zero, slice_zero]
  · obtain ⟨rfl, fits, inLog⟩ := inside isEmpty
    rw [refines.2.head, Nat.mod_add_mod] at fits ⊢
    rw [refines.2.bytes_eq fits (by omega) (by omega), Fifo.unread, slice, slice, List.drop_drop]

/-- What is searched is the part, unless that starts in the second span. -/
theorem part_eq (notCut : ¬ (buffer.firstSize < readFrom ∧ buffer.isWrappingAround)) :
    List.flatten [Span.bytes ⟨buffer.readingHead + min buffer.firstSize readFrom,
          min readUntil buffer.firstSize - readFrom⟩ buffer.buffer,
        Span.bytes ⟨0, min readUntil buffer.usedSpace - buffer.firstSize⟩ buffer.buffer] =
      buffer.part fifo.unread readFrom readUntil := by
  obtain ⟨headBound, bound, isFirstSize, wrapping⟩ := bounds refines
  rw [wrapping] at notCut
  rw [List.flatten_cons, List.flatten_singleton, @unread_bytes _ _ refines readFrom,
    @unread_bytes _ _ refines (readFrom + (min readUntil buffer.firstSize - readFrom)),
    slice_append_slice]
  · congr 1
    omega
  · intro some
    refine ⟨?_, by omega, by omega⟩
    rw [← Nat.mod_self buffer.capacity]
    congr 1
    omega
  · intro some
    rw [Nat.mod_eq_of_lt (by omega)]
    omega

/-- A part that starts in the second span is at the start of what is cut. -/
theorem part_start (cut : buffer.firstSize < readFrom ∧ buffer.isWrappingAround) :
    buffer.part fifo.unread readFrom readUntil <+:
      List.flatten [[], (buffer.cutSpan readFrom readUntil).bytes buffer.buffer] := by
  obtain ⟨headBound, bound, isFirstSize, wrapping⟩ := bounds refines
  rw [List.flatten_cons, List.flatten_singleton, part,
    ← @unread_bytes _ _ refines _ _ (readFrom - buffer.firstSize)]
  · exact List.take_prefix_take_left (Nat.sub_le_sub_left (Nat.le_of_lt cut.1) _)
  · intro some
    rw [Nat.mod_eq_sub_mod (by omega), Nat.mod_eq_of_lt (by omega)]
    omega

omit refines in
theorem findsOffset_iff (notEmpty : needle ≠ []) {part : List UInt8}
    (isPrefix : part <+: spans.flatten) :
    FindsOffset ((memmem spans needle).map (·.map (readFrom + ·))) needle part readFrom ↔
      MemMem.IndexFits needle spans.flatten ∧
      (IsFirst needle part none → IsFirst needle spans.flatten none) := by
  obtain ⟨finds, fails⟩ := memmem_isFirst notEmpty spans
  by_cases fits : MemMem.IndexFits needle spans.flatten
  · obtain ⟨result, found, isFirst⟩ := finds fits
    rw [found, ← isFirst.of_start isPrefix notEmpty]
    refine ⟨?_, fun right => ⟨result, rfl, right.2⟩⟩
    rintro ⟨other, same, right⟩
    rw [Option.map_injective (add_right_injective readFrom) (Option.some.inj same)]
    exact ⟨fits, right⟩
  · rw [fails fits]
    refine ⟨?_, fun right => absurd right.1 fits⟩
    rintro ⟨_, returned, _⟩
    cases returned

theorem findsOffset_iff_fits (notEmpty : needle ≠ []) {start : Option Nat}
    (isFrom : start.getD 0 = readFrom) (isUntil : stop.getD buffer.usedSpace = readUntil)
    (order : readFrom ≤ readUntil) :
    FindsOffset (buffer.offsetOf needle start stop) needle
        (buffer.part fifo.unread readFrom readUntil) readFrom ↔
      buffer.OffsetFits needle (buffer.part fifo.unread readFrom readUntil) readFrom readUntil := by
  have searched : buffer.offsetOf needle start stop = (buffer.searchSpans readFrom readUntil).bind
        fun spans => (memmem spans needle).map (·.map (readFrom + ·)) := by
    simp only [offsetOf, isFrom, isUntil, Option.map_eq_bind, decide_eq_true order]
    rfl
  simp only [searched, searchSpans_eq refines order, OffsetFits]
  split_ifs with cut
  · by_cases inside : (buffer.cutSpan readFrom readUntil).offset +
        (buffer.cutSpan readFrom readUntil).size ≤ buffer.capacity
    · rw [buffer.slice_span inside, Option.map_some, Option.bind_some,
        findsOffset_iff notEmpty (part_start refines cut)]
      simp [inside]
    · simp [FindsOffset, Span.slice, span, verify, inside]
  · have isPart := @part_eq _ _ _ readUntil refines cut
    rw [Option.bind_some, findsOffset_iff notEmpty (by simp [isPart]), isPart]
    simp

end

/-- An offset is found as long as no stale bytes are searched to find it. -/
theorem offsetOf_finds_iff {start buffer : CircularBuffer} {fifo : Fifo}
    {trace : List (Operation × Answer)} (created : Created start fifo)
    (run : Run Anything start trace buffer) :
    ∃ later, Fifo.Run fifo trace later ∧ ∀ needle «from» «until», needle ≠ [] →
      let readFrom := «from».getD 0
      let readUntil := «until».getD buffer.usedSpace
      let part := buffer.part later.unread readFrom readUntil
      readFrom ≤ readUntil → (FindsOffset (buffer.offsetOf needle «from» «until») needle part
        readFrom ↔ buffer.OffsetFits needle part readFrom readUntil) := by
  obtain ⟨later, fifoRun, refines⟩ := run.refines created
  refine ⟨later, fifoRun, ?_⟩
  intro needle start stop notEmpty readFrom readUntil part order
  exact findsOffset_iff_fits refines notEmpty rfl rfl order

/-- The second of two bytes is at an offset. -/
theorem offsetOf_finds_two : ∃ later, Fifo.Run ⟨4, 0, [], 0⟩ [(.write [1, 2], .written 2)] later ∧
      (FindsOffset (offsetOf ⟨[1, 2, 0, 0], 0, 2, 2⟩ [2] none none) [2]
        (part ⟨[1, 2, 0, 0], 0, 2, 2⟩ later.unread 0 2) 0 ↔
          OffsetFits ⟨[1, 2, 0, 0], 0, 2, 2⟩ [2] (part ⟨[1, 2, 0, 0], 0, 2, 2⟩ later.unread 0 2)
            0 2) := by
  have run : Run Anything fourBytes [(.write [1, 2], .written 2)] ⟨[1, 2, 0, 0], 0, 2, 2⟩ :=
    Run.step .start trivial rfl
  obtain ⟨later, fifoRun, finds⟩ := offsetOf_finds_iff fourBytes_created run
  exact ⟨later, fifoRun, finds [2] none none (by decide) (by decide)⟩

/-- A byte that was discarded is found behind the three unread ones. -/
theorem not_findsOffset_stale :
    ∃ trace buffer, Run Anything fourBytes trace buffer ∧ buffer.usedSpace = 3 ∧
      ∀ unread, ¬ FindsOffset (buffer.offsetOf [3] (some 2) (some 3)) [3]
        (buffer.part unread 2 3) 2 := by
  have first : Run Anything fourBytes [(.write [1, 2, 3, 4], .written 4)] ⟨[1, 2, 3, 4], 0, 4, 4⟩ :=
    Run.step .start trivial rfl
  have second := @Run.step _ _ _ _ ⟨[1, 2, 3, 4], 3, 1, 4⟩ (.discard 3)
    (.discarded (.ok ())) first trivial rfl
  have third := @Run.step _ _ _ _ ⟨[5, 6, 3, 4], 3, 3, 4⟩ (.write [5, 6])
    (.written 2) second trivial rfl
  refine ⟨_, _, third, rfl, ?_⟩
  rintro unread ⟨found, returned, isFirst⟩
  have beyond : found = some 1 := by
    exact Option.map_injective (add_right_injective 2) (Option.some.inj returned).symm
  subst beyond
  have inside : 2 ≤ min 1 (unread.length - 2) := by
    simpa [part, slice] using isFirst.1.le (by decide)
  omega

end CircularBuffer

end MixUpOS.AK
