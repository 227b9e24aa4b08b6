import MixUpOS.AK.Builtins
import MixUpOS.AK.Error
import MixUpOS.Library.RingLogs

/-!
# Circular buffers

A queue of bytes in a buffer of fixed size, whose bytes can be read again
until they are overwritten.

A span of the buffer is an offset and a size.  The source of `write` is either
outside of the buffer or such a span of it, as in `copy_from_seekback`; bytes
are moved with `memmove`, span by span, so what is read from the buffer is
what it then contains.  A buffer is in memory, and so no sum of offsets and
sizes here exceeds `size_t`.

`none` is a failed `VERIFY`.  Every turn of a loop moves at least one byte, and
the number of turns is bounded by the number of bytes asked for.
-/

namespace MixUpOS.AK

open Library.RingLogs

/-- `Error`, as the code of this module makes and passes it. -/
inductive StreamError where
  | stringLiteral (literal : String)
  | errno (code : ErrNo)
deriving DecidableEq, Repr

/-- Bytes of the buffer. -/
structure Span where
  offset : Nat
  size : Nat
deriving DecidableEq, Repr

namespace Span

/-- `slice(start, length)`. -/
def slice (span : Span) (start length : Nat) : Option Span := do
  verify (decide (start + length ≤ span.size))
  return ⟨span.offset + start, length⟩

/-- `slice(start)`. -/
def sliceFrom (span : Span) (start : Nat) : Option Span := do
  verify (decide (start ≤ span.size))
  return ⟨span.offset + start, span.size - start⟩

def trim (span : Span) (length : Nat) : Span := ⟨span.offset, min span.size length⟩

/-- What the span contains. -/
def bytes (span : Span) (buffer : List UInt8) : List UInt8 :=
  Library.RingLogs.slice buffer span.offset span.size

theorem bytes_trim (span : Span) (count : Nat) (buffer : List UInt8) :
    (span.trim count).bytes buffer = (span.bytes buffer).take count := by
  rw [bytes, bytes, Library.RingLogs.take_slice, trim, Nat.min_comm]

end Span

/-- The bytes that `write` is given. -/
inductive ReadonlyBytes where
  | outside (bytes : List UInt8)
  | inside (span : Span)
deriving DecidableEq, Repr

namespace ReadonlyBytes

def size : ReadonlyBytes → Nat
  | outside bytes => bytes.length
  | inside span => span.size

def sliceFrom (source : ReadonlyBytes) (start : Nat) : Option ReadonlyBytes :=
  match source with
  | outside bytes => do
      verify (decide (start ≤ bytes.length))
      return outside (bytes.drop start)
  | inside span => (span.sliceFrom start).map inside

/-- What the bytes are while the buffer contains what is given. -/
def bytes (source : ReadonlyBytes) (buffer : List UInt8) : List UInt8 :=
  match source with
  | outside bytes => bytes
  | inside span => span.bytes buffer

end ReadonlyBytes

/-- A stream to fill a buffer from: what it answers to a span of a size. -/
structure ReadStream where
  readSome : Nat → Except StreamError (List UInt8)
  bounded : ∀ {size bytes}, readSome size = .ok bytes → bytes.length ≤ size

/-- A stream to flush a buffer to: how many of the bytes it takes. -/
structure WriteStream where
  writeSome : List UInt8 → Except StreamError Nat
  bounded : ∀ {bytes count}, writeSome bytes = .ok count → count ≤ bytes.length

structure CircularBuffer where
  buffer : List UInt8
  readingHead : Nat
  usedSpace : Nat
  seekbackLimit : Nat
deriving DecidableEq, Repr

namespace CircularBuffer

variable (buffer : CircularBuffer)

/-- `create_empty`, with the bytes that the new memory happens to contain;
there are none if it is not granted. -/
def createEmpty (memory : Option (List UInt8)) : Except StreamError CircularBuffer :=
  match memory with
  | some bytes => .ok ⟨bytes, 0, 0, 0⟩
  | none => .error (.errno .ENOMEM)

def createInitialized (bytes : List UInt8) : CircularBuffer := ⟨bytes, 0, bytes.length, 0⟩

def capacity : Nat := buffer.buffer.length

def emptySpace : Nat := buffer.capacity - buffer.usedSpace

def isWrappingAround : Bool := decide (buffer.capacity ≤ buffer.readingHead + buffer.usedSpace)

/-- `m_buffer.span()`. -/
def span : Span := ⟨0, buffer.capacity⟩

def nextWriteSpan : Option Span :=
  if buffer.isWrappingAround then
    buffer.span.slice (buffer.readingHead + buffer.usedSpace - buffer.capacity)
      (buffer.capacity - buffer.usedSpace)
  else
    buffer.span.slice (buffer.readingHead + buffer.usedSpace)
      (buffer.capacity - (buffer.readingHead + buffer.usedSpace))

def nextReadSpan (offset : Nat) : Option Span :=
  if 0 < offset then
    if buffer.usedSpace ≤ offset then some ⟨0, 0⟩
    else
      let readingHead := (buffer.readingHead + offset) % buffer.capacity
      buffer.span.slice readingHead
        (min (buffer.capacity - readingHead) (buffer.usedSpace - offset))
  else
    buffer.span.slice buffer.readingHead
      (min (buffer.capacity - buffer.readingHead) buffer.usedSpace)

def nextSeekbackSpan (distance : Nat) : Option Span := do
  verify (decide (buffer.seekbackLimit ≤ buffer.capacity))
  verify (decide (distance ≤ buffer.seekbackLimit))
  let readOffset := (buffer.capacity + buffer.readingHead + buffer.usedSpace -
    distance) % buffer.capacity
  buffer.span.slice readOffset (min (buffer.capacity - readOffset) distance)

/-- The bytes are written to the buffer and counted. -/
def append (offset : Nat) (bytes : List UInt8) : CircularBuffer :=
  { buffer with
    buffer := overwrite buffer.buffer offset bytes
    usedSpace := buffer.usedSpace + bytes.length
    seekbackLimit :=
      if buffer.capacity < buffer.seekbackLimit + bytes.length
      then buffer.capacity else buffer.seekbackLimit + bytes.length }

/-- The reading head moves past bytes of one span. -/
def advance (count : Nat) : CircularBuffer := { buffer with
    usedSpace := buffer.usedSpace - count
    readingHead :=
      if buffer.capacity ≤ buffer.readingHead + count
      then buffer.readingHead + count - buffer.capacity
      else buffer.readingHead + count }

def writeLoop (bytes : ReadonlyBytes) : Nat → CircularBuffer → Nat → Option (Nat × CircularBuffer)
  | 0, _, _ => none
  | fuel + 1, buffer, remaining =>
    if remaining = 0 then some (remaining, buffer)
    else do
      let nextSpan ← buffer.nextWriteSpan
      if nextSpan.size = 0 then return (remaining, buffer)
      else
        let source ← bytes.sliceFrom (bytes.size - remaining)
        let copied := (source.bytes buffer.buffer).take nextSpan.size
        writeLoop bytes fuel (buffer.append nextSpan.offset copied) (remaining - copied.length)

/-- The number of bytes written. -/
def write (bytes : ReadonlyBytes) : Option (Nat × CircularBuffer) := do
  let (remaining, buffer) ← writeLoop bytes (bytes.size + 1) buffer bytes.size
  return (bytes.size - remaining, buffer)

def readLoop : Nat → CircularBuffer → Nat → Option (List UInt8 × CircularBuffer)
  | 0, _, _ => none
  | fuel + 1, buffer, remaining =>
    if remaining = 0 then some ([], buffer)
    else do
      let nextSpan ← buffer.nextReadSpan 0
      if nextSpan.size = 0 then return ([], buffer)
      else
        let copied := (nextSpan.bytes buffer.buffer).take remaining
        let (rest, buffer) ← readLoop fuel (buffer.advance copied.length)
          (remaining - copied.length)
        return (copied ++ rest, buffer)

/-- `read` of as many bytes as the given span has. -/
def read (size : Nat) : Option (List UInt8 × CircularBuffer) := readLoop (size + 1) buffer size

def readWithSeekbackLoop (buffer : CircularBuffer) : Nat → Nat → Nat → Option (List UInt8)
  | 0, _, _ => none
  | fuel + 1, distance, remaining =>
    if remaining = 0 then some []
    else do
      let nextSpan ← buffer.nextSeekbackSpan distance
      if nextSpan.size = 0 then return []
      else
        let copied := (nextSpan.bytes buffer.buffer).take remaining
        let rest ← readWithSeekbackLoop buffer fuel
          (distance - copied.length) (remaining - copied.length)
        return copied ++ rest

def readWithSeekback (size distance : Nat) : Option (Except StreamError (List UInt8)) :=
  if buffer.seekbackLimit < distance then
    some (.error (.stringLiteral "Tried a seekback read beyond the seekback limit"))
  else (readWithSeekbackLoop buffer (size + 1) distance size).map .ok

def discard (buffer : CircularBuffer) (discardingSize : Nat) :
    Except StreamError Unit × CircularBuffer :=
  if buffer.usedSpace < discardingSize then
    (.error (.stringLiteral "Can not discard more data than what the buffer contains"), buffer)
  else
    (.ok (), { buffer with
      usedSpace := buffer.usedSpace - discardingSize
      readingHead := (buffer.readingHead + discardingSize) % buffer.capacity })

def fillFromStream (stream : ReadStream) : Option (Except StreamError Nat × CircularBuffer) := do
  let nextSpan ← buffer.nextWriteSpan
  if nextSpan.size = 0 then return (.ok 0, buffer)
  else
    match stream.readSome nextSpan.size with
    | .error error => return (.error error, buffer)
    | .ok bytes =>
      return (.ok bytes.length, buffer.append nextSpan.offset bytes)

def flushToStream (stream : WriteStream) : Option (Except StreamError Nat × CircularBuffer) := do
  let nextSpan ← buffer.nextReadSpan 0
  if nextSpan.size = 0 then return (.ok 0, buffer)
  else
    match stream.writeSome (nextSpan.bytes buffer.buffer) with
    | .error error => return (.error error, buffer)
    | .ok count => return (.ok count, buffer.advance count)

def copyLoop : Nat → CircularBuffer → Nat → Nat → Option (Nat × CircularBuffer)
  | 0, _, _, _ => none
  | fuel + 1, buffer, distance, remainingLength =>
    if remainingLength = 0 then some (remainingLength, buffer)
    else if buffer.emptySpace = 0 then some (remainingLength, buffer)
    else do
      let nextSpan ← buffer.nextSeekbackSpan distance
      if nextSpan.size = 0 then return (remainingLength, buffer)
      else
        let (lengthWritten, buffer) ← buffer.write (.inside (nextSpan.trim remainingLength))
        let remainingLength := remainingLength - lengthWritten
        copyLoop fuel buffer (if distance < remainingLength ∧ lengthWritten = distance
            then distance * 2 else distance) remainingLength

def copyFromSeekback (distance length : Nat) : Option (Except StreamError Nat × CircularBuffer) :=
  if buffer.seekbackLimit < distance then
    some (.error (.stringLiteral "Tried a seekback copy beyond the seekback limit"), buffer)
  else do
    let (remainingLength, buffer) ← copyLoop (length + 1) buffer distance length
    return (.ok (length - remainingLength), buffer)

end CircularBuffer

end MixUpOS.AK
