import MixUpOS.AK.CircularBufferHistory
import MixUpOS.AK.MemMem

/-!
# Searchable circular buffers

A circular buffer with an index of the chunks of three bytes that have been
read, by their hashes.  A map leads from a hash to the last offset that was
indexed with it, and a chain from each offset to the one before it.

The two hash maps are partial functions; `memory` tells for each offset whether
the memory for its entries in the chain and in the map is granted.  `char` is
signed.  `none` is a failed `VERIFY` or `MUST`, or a loop without an end.
-/

namespace MixUpOS.AK

def stringHash (bytes : List UInt8) : UInt32 :=
  let mixed := bytes.foldl (fun (hash : UInt32) byte =>
    let hash := hash + (if 128 ≤ byte.toNat then 0xFFFFFF00 + byte.toUInt32
        else byte.toUInt32)
    let hash := hash + (hash <<< 10)
    hash ^^^ (hash >>> 6)) 0
  let mixed := mixed + (mixed <<< 3)
  let mixed := mixed ^^^ (mixed >>> 11)
  mixed + (mixed <<< 15)

def hashChunkSize : Nat := 3

def matchingPrefixLength : List UInt8 → List UInt8 → Nat
  | first :: firstRest, second :: secondRest =>
    if first = second then matchingPrefixLength firstRest secondRest + 1
    else 0
  | _, _ => 0

structure Match where
  distance : Nat
  length : Nat
deriving DecidableEq, Repr

structure SearchableCircularBuffer extends CircularBuffer where
  hashHead : Nat
  hashLocationMap : UInt32 → Option Nat
  locationChainMap : Nat → Option Nat

namespace SearchableCircularBuffer

variable (buffer : SearchableCircularBuffer)

/-- `create_empty`, with the bytes that the new memory happens to contain. -/
def createEmpty (memory : Option (List UInt8)) : Except StreamError SearchableCircularBuffer := do
  let buffer ← CircularBuffer.createEmpty memory
  return ⟨buffer, 0, fun _ => none, fun _ => none⟩

/-- How far the bytes reach back that have been read. -/
def searchLimit : Nat := buffer.seekbackLimit - buffer.usedSpace

def nextSearchSpan (distance : Nat) : Option Span := do
  verify (decide (buffer.searchLimit ≤ buffer.capacity))
  verify (decide (distance ≤ buffer.searchLimit))
  let readOffset := (buffer.capacity + buffer.readingHead - distance) % buffer.capacity
  buffer.span.slice readOffset (min (buffer.capacity - readOffset) distance)

def insertLocationHash (value : List UInt8) (rawOffset : Nat) (memory : Bool × Bool) :
    Option (Except StreamError Unit × SearchableCircularBuffer) := do
  verify (decide (value.length = hashChunkSize))
  let valueHash := stringHash value
  let chains := Function.update buffer.locationChainMap rawOffset none
  match buffer.hashLocationMap valueHash with
  | some location =>
    if !memory.1 then
      return (.error (.errno .ENOMEM), { buffer with locationChainMap := chains })
    else
      let buffer := { buffer with
        locationChainMap := Function.update chains rawOffset (some location) }
      if !memory.2 then return (.error (.errno .ENOMEM), buffer)
      else
        return (.ok (), { buffer with
          hashLocationMap := Function.update buffer.hashLocationMap valueHash (some rawOffset) })
  | none =>
    let buffer := { buffer with locationChainMap := chains }
    if !memory.2 then return (.error (.errno .ENOMEM), buffer)
    else
      return (.ok (), { buffer with
        hashLocationMap := Function.update buffer.hashLocationMap valueHash (some rawOffset) })

/-- The chunks of a span are indexed. -/
def hashChunks (memory : Nat → Bool × Bool) (span : Span) : Nat → Nat → SearchableCircularBuffer →
      Option (Except StreamError Unit × SearchableCircularBuffer)
  | 0, _, buffer => some (.ok (), buffer)
  | remaining + 1, index, buffer => do
      let value ← span.slice index hashChunkSize
      let (result, buffer) ← buffer.insertLocationHash
        (value.bytes buffer.buffer) value.offset (memory value.offset)
      match result with
      | .error error => return (.error error, buffer)
      | .ok _ =>
        hashChunks memory span remaining (index + 1) { buffer with hashHead := buffer.hashHead + 1 }

/-- The chunks are indexed that start at the end of the buffer and go on at
its start. -/
def hashAcrossEnd (memory : Nat → Bool × Bool) (auxiliary : Span) :
    Nat → Span → SearchableCircularBuffer →
      Option (Except StreamError Unit × SearchableCircularBuffer)
  | 0, _, _ => none
  | fuel + 1, span, buffer =>
    if 0 < span.size ∧ hashChunkSize ≤ span.size + auxiliary.size then do
      verify (decide (span.size ≤ hashChunkSize))
      verify (decide (auxiliary.size ≤ hashChunkSize - span.size))
      verify (decide (span.size + auxiliary.size = hashChunkSize))
      let (result, buffer) ← buffer.insertLocationHash
        (span.bytes buffer.buffer ++ auxiliary.bytes buffer.buffer)
        span.offset (memory span.offset)
      match result with
      | .error error => return (.error error, buffer)
      | .ok _ =>
        let rest ← span.sliceFrom 1
        hashAcrossEnd memory auxiliary fuel rest { buffer with hashHead := buffer.hashHead + 1 }
    else some (.ok (), buffer)

/-- The chunks from the hash head on, up to the reading head or the end. -/
def hashSpan (memory : Nat → Bool × Bool) (buffer : SearchableCircularBuffer) :
    Option (Except StreamError Unit × SearchableCircularBuffer) := do
  let span ← buffer.span.slice buffer.hashHead
    ((buffer.capacity + buffer.readingHead - buffer.hashHead) % buffer.capacity)
  if span.size < hashChunkSize then
    let auxiliary ← buffer.span.sliceFrom ((buffer.hashHead + span.size) % buffer.capacity)
    verify (decide (span.offset + span.size = buffer.capacity))
    verify (decide (auxiliary.offset = 0))
    hashAcrossEnd memory auxiliary (span.size + 1) span buffer
  else
    hashChunks memory span (span.size + 1 - hashChunkSize) 0 buffer

def hashNewBytesLoop (memory : Nat → Bool × Bool) (lastHashHead : Nat) :
    Nat → SearchableCircularBuffer → Option (Except StreamError Unit × SearchableCircularBuffer)
  | 0, _ => none
  | fuel + 1, buffer =>
    if lastHashHead < buffer.hashHead then some (.ok (), buffer)
    else do
      let (result, buffer) ← hashSpan memory buffer
      match result with
      | .error error => return (.error error, buffer)
      | .ok _ => hashNewBytesLoop memory lastHashHead fuel buffer

def hashNewBytes (memory : Nat → Bool × Bool) :
    Option (Except StreamError Unit × SearchableCircularBuffer) :=
  if buffer.searchLimit < hashChunkSize then some (.ok (), buffer)
  else hashNewBytesLoop memory ((buffer.capacity + buffer.readingHead - hashChunkSize) %
      buffer.capacity) (buffer.capacity + 1) buffer

def write (buffer : SearchableCircularBuffer) (bytes : List UInt8) :
    Option (Nat × SearchableCircularBuffer) := do
  let (count, written) ← buffer.toCircularBuffer.write (.outside bytes)
  return (count, { buffer with toCircularBuffer := written })

def read (buffer : SearchableCircularBuffer) (size : Nat) (memory : Nat → Bool × Bool) :
    Option (Except StreamError (List UInt8) × SearchableCircularBuffer) := do
  let (bytes, rest) ← buffer.toCircularBuffer.read size
  let (result, buffer) ← hashNewBytes { buffer with toCircularBuffer := rest } memory
  return (result.map fun _ => bytes, buffer)

def discard (buffer : SearchableCircularBuffer) (discardedBytes : Nat)
    (memory : Nat → Bool × Bool) : Option (Except StreamError Unit × SearchableCircularBuffer) :=
  match buffer.toCircularBuffer.discard discardedBytes with
  | (.error error, _) => some (.error error, buffer)
  | (.ok _, rest) =>
    hashNewBytes { buffer with toCircularBuffer := rest } memory

def matchLoop (buffer : SearchableCircularBuffer)
    (distance maximumLength : Nat) : Nat → Nat → Option Nat
  | 0, _ => none
  | fuel + 1, currentMatchLength =>
    if maximumLength ≤ currentMatchLength then some currentMatchLength
    else do
      let haystack ← buffer.nextSearchSpan (distance - currentMatchLength)
      let needle ← buffer.nextReadSpan currentMatchLength
      let submatchLength := matchingPrefixLength
        ((haystack.trim (maximumLength - currentMatchLength)).bytes buffer.buffer)
        ((needle.trim (maximumLength - currentMatchLength)).bytes buffer.buffer)
      if submatchLength = 0 then return currentMatchLength
      else
        matchLoop buffer distance maximumLength fuel (currentMatchLength + submatchLength)

/-- The longer match; of two of the same length the first. -/
def longer (best : Option Match) (new : Match) : Option Match :=
  match best with
  | none => some new
  | some old => if old.length < new.length then some new else some old

def tryDistances (buffer : SearchableCircularBuffer) (maximumLength minimumLength : Nat) :
    List Nat → Option Match → Option (Option Match)
  | [], best => some best
  | distance :: rest, best =>
    if buffer.searchLimit < distance ∨ distance ≤ 0 then
      tryDistances buffer maximumLength minimumLength rest best
    else if distance < minimumLength then
      tryDistances buffer maximumLength minimumLength rest best
    else do
      let currentMatchLength ← matchLoop buffer distance maximumLength (maximumLength + 1) 0
      if currentMatchLength < minimumLength then
        tryDistances buffer maximumLength minimumLength rest best
      else
        tryDistances buffer maximumLength minimumLength rest
          (longer best ⟨distance, currentMatchLength⟩)

/-- `find_copy_in_seekback` with distances. -/
def findCopyAtDistances (distances : List Nat) (maximumLength minimumLength : Nat) :
    Option (Option Match) := do
  verify (decide (0 < minimumLength))
  let maximumLength := min maximumLength buffer.usedSpace
  if maximumLength < minimumLength then return none
  else tryDistances buffer maximumLength minimumLength distances none

/-- `MUST(read_with_seekback(...))` into a span of the size. -/
def mustReadWithSeekback (size distance : Nat) : Option (List UInt8) := do
  let result ← buffer.readWithSeekback size distance
  match result with
  | .ok bytes => do
      verify (decide (bytes.length = size))
      return bytes
  | .error _ => none

/-- The chain ends where its bytes were overwritten. -/
def cutChain (needleHash : UInt32) (previousBufferOffset : Option Nat) : SearchableCircularBuffer :=
  match previousBufferOffset with
  | none => { buffer with
      hashLocationMap := Function.update buffer.hashLocationMap needleHash none }
  | some offset => { buffer with
      locationChainMap := Function.update buffer.locationChainMap offset none }

def chainLoop (buffer : SearchableCircularBuffer) (needleHash : UInt32) (maximumLength : Nat) :
    Nat → Option Nat → Nat → Option Match → Option (Option Match × SearchableCircularBuffer)
  | 0, _, _, _ => none
  | fuel + 1, previousBufferOffset, currentBufferOffset, bestMatch => do
      let currentSearchOffset := (buffer.capacity + buffer.readingHead -
        currentBufferOffset) % buffer.capacity
      let chunk ← buffer.mustReadWithSeekback hashChunkSize (currentSearchOffset + buffer.usedSpace)
      if needleHash ≠ stringHash chunk then
        return (bestMatch, buffer.cutChain needleHash previousBufferOffset)
      else
        let newMatch ← buffer.findCopyAtDistances [currentSearchOffset] maximumLength hashChunkSize
        let better := newMatch.elim bestMatch (longer bestMatch)
        -- Only a match that has just been recorded ends the search.
        if better ≠ bestMatch ∧
            (better.elim false fun best => decide (maximumLength ≤ best.length)) then
          return (better, buffer)
        else
          match buffer.locationChainMap currentBufferOffset with
          | none => return (better, buffer)
          | some next =>
            chainLoop buffer needleHash maximumLength fuel (some currentBufferOffset) next better

/-- The search by hashes. -/
def findByHash (needle : List UInt8) (maximumLength : Nat) :
    Option (Option Match × SearchableCircularBuffer) :=
  if hashChunkSize ≤ needle.length then
    match buffer.hashLocationMap (stringHash needle) with
    | none => some (none, buffer)
    | some start => chainLoop buffer (stringHash needle) maximumLength
        (buffer.capacity + 1) none start none
  else some (none, buffer)

/-- Bytes are taken away from the end of the haystack. -/
def trimHaystack : Nat → List Span → List Span
  | _, [] => []
  | sizeToDiscard, span :: rest =>
    if sizeToDiscard = 0 then span :: rest
    else if span.size ≤ sizeToDiscard then
      trimHaystack (sizeToDiscard - span.size) rest
    else ⟨span.offset, span.size - sizeToDiscard⟩ :: rest

def memoryLoop (buffer : SearchableCircularBuffer) (needle : List UInt8)
    (maximumLength minimumLength : Nat) :
    Nat → List Span → Nat → Option Match → Option (Option Match)
  | 0, _, _, _ => none
  | fuel + 1, haystack, haystackOffsetFromEnd, bestMatch => do
      let found ← memmemReverse (haystack.map fun span => span.bytes buffer.buffer) needle
      match found with
      | none => return bestMatch
      | some matchOffset =>
        let newMatch ← buffer.findCopyAtDistances [haystackOffsetFromEnd + matchOffset]
          (min maximumLength hashChunkSize) minimumLength
        let new ← newMatch
        let better := longer bestMatch new
        if better ≠ bestMatch ∧
            (better.elim false fun best => decide (maximumLength ≤ best.length)) then
          return better
        else
          let rest := trimHaystack (matchOffset + 1) haystack
          if rest.length = 0 then return better
          else
            memoryLoop buffer needle maximumLength minimumLength fuel rest
              (haystackOffsetFromEnd + (matchOffset + 1)) better

/-- The bytes that have been read, the later ones first. -/
def searchHaystack : Option (List Span) := do
  let older ← buffer.nextSearchSpan buffer.searchLimit
  if older.size < buffer.searchLimit then
    let newer ← buffer.nextSearchSpan (buffer.searchLimit - older.size)
    return [newer, older]
  else return [older]

/-- The plain search of the memory. -/
def findInMemory (needle : List UInt8)
    (maximumLength minimumLength : Nat) : Option (Option Match) :=
  if minimumLength ≤ hashChunkSize then do
    let haystack ← buffer.searchHaystack
    let best ← memoryLoop buffer (needle.take minimumLength) maximumLength
      minimumLength (buffer.searchLimit + 1) haystack 0 none
    verify (best.elim true fun found => decide (found.length < hashChunkSize))
    return best
  else some none

def findCopyInSeekback (maximumLength minimumLength : Nat) :
    Option (Option Match × SearchableCircularBuffer) := do
  verify (decide (0 < minimumLength))
  let maximumLength := min maximumLength buffer.usedSpace
  if maximumLength < minimumLength then return (none, buffer)
  else
    let needle ← buffer.mustReadWithSeekback (min hashChunkSize maximumLength) buffer.usedSpace
    let (byHash, buffer) ← buffer.findByHash needle maximumLength
    match byHash with
    | some best => return (some best, buffer)
    | none =>
      let best ← buffer.findInMemory needle maximumLength minimumLength
      return (best, buffer)

end SearchableCircularBuffer

end MixUpOS.AK
