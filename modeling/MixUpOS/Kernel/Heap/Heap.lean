import MixUpOS.AK.Bitmap
import MixUpOS.Library.ByteMemory

/-!
# The chunk heap of the kernel

A heap hands out runs of chunks of a memory block.  An allocation starts with
a header, which is placed such that the bytes behind it are aligned, so it
starts in the middle of a chunk.  The bitmap of the chunks is at the end of
the block.  `none` is a failed `VERIFY`; pointers are 64-bit words, and zero
is the null pointer.
-/

namespace MixUpOS.Kernel

open AK Library

/-- `sizeof(AllocationHeader)`, which is also the offset of its `data`. -/
def allocationHeaderSize : Nat := 16

/-- The template parameters of a heap. -/
structure HeapParameters where
  chunkSize : Nat
  scrubByteAlloc : BitVec 8
  scrubByteFree : BitVec 8
  /-- `static_assert(CHUNK_SIZE >= sizeof(AllocationHeader))`. -/
  header : allocationHeaderSize ≤ chunkSize

structure Heap where
  totalChunks : Nat
  allocatedChunks : Nat
  chunks : Nat
  bitmap : Bitmap
  memory : ByteMemory

def wordAdd (left right : Nat) : Nat := (left + right) % 2 ^ 64

def wordSub (left right : Nat) : Nat := (left + (2 ^ 64 - right)) % 2 ^ 64

namespace Heap

variable (params : HeapParameters)

def calculateChunks (memorySize : Nat) : Nat := memorySize / (params.chunkSize + 1)

/-- The bits that are in memory where the bitmap is put. -/
def bitmapAt (memory : ByteMemory) (address size : Nat) : Bitmap :=
  ⟨(List.range size).map fun index =>
    (memory (address + index / 8)).getLsbD (index % 8)⟩

/-- The constructor, which does not clear the bitmap. -/
def create (memory : ByteMemory) (start memorySize : Nat) : Option Heap := do
  let totalChunks := calculateChunks params memorySize
  verify (totalChunks * params.chunkSize + (totalChunks + 7) / 8 ≤ memorySize)
  return {
    totalChunks := totalChunks
    allocatedChunks := 0
    chunks := start
    bitmap := bitmapAt memory (start + totalChunks * params.chunkSize) totalChunks
    memory := memory }

def freeChunks (heap : Heap) : Nat := wordSub heap.totalChunks heap.allocatedChunks

/-- `m_chunks + m_total_chunks * CHUNK_SIZE`. -/
def chunksEnd (heap : Heap) : Nat := wordAdd heap.chunks (heap.totalChunks * params.chunkSize)

def bestFitThreshold : Nat := 128

/-- The policy for allocation. -/
def chooseFirstChunk (heap : Heap) (chunksNeeded chunkAlignment : Nat) : Option (Option Nat) :=
  if chunksNeeded < bestFitThreshold then
    some (heap.bitmap.findFirstFit (chunksNeeded + chunkAlignment))
  else heap.bitmap.findBestFit (chunksNeeded + chunkAlignment)

/-- Move a header such that its data is aligned. -/
def alignHeader (header alignment : Nat) : Nat :=
  wordSub (wordAdd header alignment) (wordAdd header allocationHeaderSize % alignment)

/-- Scrub fresh memory, unless the caller does it or there is no byte to
scrub with. -/
def scrubFresh (memory : ByteMemory) (start count : Nat)
    (callerWillInitializeMemory : Bool) : ByteMemory :=
  if callerWillInitializeMemory || params.scrubByteAlloc == 0#8 then
    memory
  else memory.fill start count params.scrubByteAlloc

def scrubFreed (memory : ByteMemory) (start count : Nat) : ByteMemory :=
  if params.scrubByteFree == 0#8 then memory
  else memory.fill start count params.scrubByteFree

/-- `allocate` after a range of chunks was found. -/
def allocateAt (heap : Heap) (firstChunk chunksNeeded chunkAlignment
    alignment : Nat) (callerWillInitializeMemory : Bool) :
    Option (Nat × Heap) := do
  let header := alignHeader (wordAdd heap.chunks (firstChunk * params.chunkSize)) alignment
  let alignedFirstChunk := wordSub header heap.chunks / params.chunkSize
  verify (firstChunk ≤ alignedFirstChunk)
  verify (alignedFirstChunk + chunksNeeded ≤ firstChunk + chunksNeeded + chunkAlignment)
  let pointer := wordAdd header allocationHeaderSize
  let bitmap ← heap.bitmap.setRangeAndVerifyThatAllBitsFlip alignedFirstChunk chunksNeeded true
  verify (pointer % alignment == 0)
  return (pointer, { heap with
    allocatedChunks := heap.allocatedChunks + chunksNeeded
    bitmap := bitmap
    memory := scrubFresh params (heap.memory.store header 8 chunksNeeded) pointer
      (wordSub (chunksNeeded * params.chunkSize) allocationHeaderSize)
      callerWillInitializeMemory })

/-- The alignment is at least the size of a chunk. -/
def atLeastChunkSize (alignment : Nat) : Nat :=
  if alignment < params.chunkSize then params.chunkSize
  else alignment

/-- The chunks that hold the given number of bytes, rounded up. -/
def chunksFor (bytes : Nat) : Nat :=
  wordSub (wordAdd bytes params.chunkSize) 1 / params.chunkSize

def chunksNeededFor (size : Nat) : Nat := chunksFor params (wordAdd size allocationHeaderSize)

/-- The pointer, or `none` for the null pointer. -/
def allocate (heap : Heap) (size alignment : Nat)
    (callerWillInitializeMemory : Bool) : Option (Option Nat × Heap) := do
  let alignment := atLeastChunkSize params alignment
  let chunksNeeded := chunksNeededFor params size
  let chunkAlignment := chunksFor params alignment
  if heap.freeChunks < chunksNeeded then return (none, heap)
  else
    match ← heap.chooseFirstChunk chunksNeeded chunkAlignment with
    | none => return (none, heap)
    | some firstChunk =>
      let (pointer, later) ← heap.allocateAt params firstChunk
        chunksNeeded chunkAlignment alignment callerWillInitializeMemory
      return (some pointer, later)

def deallocate (heap : Heap) (pointer : Nat) : Option Heap :=
  if pointer = 0 then some heap
  else do
    let header := wordSub pointer allocationHeaderSize
    verify (heap.chunks ≤ header && pointer < heap.chunksEnd params)
    let start := wordSub header heap.chunks / params.chunkSize
    verify (← heap.bitmap.get start)
    let count := heap.memory.load header 8
    let bytes := count * params.chunkSize % 2 ^ 64
    verify (wordAdd header bytes ≤ heap.chunksEnd params)
    let bitmap ← heap.bitmap.setRangeAndVerifyThatAllBitsFlip start count false
    verify (count ≤ heap.allocatedChunks)
    return { heap with
      allocatedChunks := heap.allocatedChunks - count
      bitmap := bitmap
      memory := scrubFreed params heap.memory header bytes }

end Heap

end MixUpOS.Kernel
