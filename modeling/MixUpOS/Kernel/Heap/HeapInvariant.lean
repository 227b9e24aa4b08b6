import Mathlib.Data.List.Nodup
import Mathlib.Data.Nat.ModEq
import MixUpOS.AK.BitmapSearch
import MixUpOS.Kernel.Heap.Heap

/-!
# The chunk heap keeps allocations apart

All headers are shifted against the chunks by the same number of bytes if the
size of a chunk divides every alignment, so disjoint chunks give disjoint
bytes.  This module follows a heap through every sequence of allocations,
deallocations and writes to live memory.
-/

namespace MixUpOS.Kernel

open AK Library Heap ByteMemory Bitmap

/-- A live allocation, with the request that it answers. -/
structure Allocation where
  pointer : Nat
  size : Nat
  alignment : Nat
  firstChunk : Nat
  chunks : Nat
deriving DecidableEq

namespace Allocation

variable (params : HeapParameters)

def header (owned : Allocation) : Nat := owned.pointer - allocationHeaderSize

def stop (owned : Allocation) : Nat :=
  owned.header + owned.chunks * params.chunkSize

/-- The chunk belongs to the allocation. -/
def Holds (owned : Allocation) (index : Nat) : Prop :=
  owned.firstChunk ≤ index ∧ index < owned.firstChunk + owned.chunks

/-- The allocation at a pointer, as its header in memory describes it. -/
def ofPointer (heap : Heap) (pointer size align : Nat) : Allocation where
  pointer := pointer
  size := size
  alignment := align
  firstChunk := (pointer - allocationHeaderSize - heap.chunks) / params.chunkSize
  chunks := heap.memory.load (pointer - allocationHeaderSize) 8

end Allocation

/-- A heap and what its users hold. -/
structure HeapState where
  heap : Heap
  live : List Allocation

namespace HeapState

variable (params : HeapParameters)

/-- The size does not overflow with its header and a chunk, and the data does
not start behind the allocation. -/
structure Fits (size : Nat) : Prop where
  small : size + allocationHeaderSize + params.chunkSize ≤ 2 ^ 64
  nonempty : params.chunkSize = allocationHeaderSize → 0 < size

/-- The calls of users of the heap, and their writes to what they hold. -/
inductive Step : HeapState → HeapState → Prop where
  | allocate {state : HeapState} {later : Heap} {size align pointer : Nat}
      {willInitialize : Bool} :
      Fits params size → align.isPowerOfTwo →
      align < 2 ^ 64 →
      state.heap.allocate params size align
        willInitialize = some (some pointer, later) →
      Step state ⟨later, .ofPointer params later pointer size align :: state.live⟩
  | refuse {state : HeapState} {later : Heap} {size align : Nat}
      {willInitialize : Bool} :
      Fits params size → align.isPowerOfTwo →
      align < 2 ^ 64 →
      state.heap.allocate params size align
        willInitialize = some (none, later) →
      Step state ⟨later, state.live⟩
  | deallocate {state : HeapState} {later : Heap} {owned : Allocation} :
      owned ∈ state.live →
      state.heap.deallocate params owned.pointer = some later →
      Step state ⟨later, state.live.erase owned⟩
  | write {state : HeapState} {memory : ByteMemory} {owned : Allocation} :
      owned ∈ state.live →
      Within owned.pointer (owned.stop params) state.heap.memory memory →
      Step state ⟨{ state.heap with memory := memory }, state.live⟩

/-- What the heap promises its users. -/
structure Safe (state : HeapState) : Prop where
  disjoint : state.live.Pairwise fun owned other =>
    owned.stop params ≤ other.header ∨ other.stop params ≤ owned.header
  inside : ∀ owned ∈ state.live, state.heap.chunks ≤ owned.header ∧
      owned.stop params ≤ state.heap.chunks + state.heap.totalChunks * params.chunkSize
  described : ∀ owned ∈ state.live,
    owned = .ofPointer params state.heap owned.pointer
      owned.size owned.alignment
  aligned : ∀ owned ∈ state.live, owned.pointer % owned.alignment = 0
  usable : ∀ owned ∈ state.live,
    owned.pointer + owned.size ≤ owned.stop params
  counted : state.heap.allocatedChunks = state.heap.bitmap.bits.count true
  exact : ∀ index, state.heap.bitmap.bitAt index = true ↔
    ∃ owned ∈ state.live, owned.Holds index
  allocates : ∀ size align willInitialize,
    Fits params size → align.isPowerOfTwo → align < 2 ^ 64 →
    (state.heap.allocate params size align willInitialize).isSome = true
  deallocates : ∀ owned ∈ state.live,
    (state.heap.deallocate params owned.pointer).isSome = true

end HeapState

/-! ## Words and chunks -/

theorem wordAdd_eq (bound : left + right < 2 ^ 64) : wordAdd left right = left + right :=
  Nat.mod_eq_of_lt bound

theorem wordSub_eq (order : right ≤ left) (bound : left < 2 ^ 64) :
    wordSub left right = left - right := by
  unfold wordSub
  omega

/-- An intermediate sum may wrap around if the difference does not. -/
theorem wordSub_wordAdd (order : taken ≤ left + right) (small : taken < 2 ^ 64)
    (bound : left + right - taken < 2 ^ 64) :
    wordSub (wordAdd left right) taken = left + right - taken := by
  unfold wordSub wordAdd
  omega

namespace Heap

/-- The distance by which a header is moved. -/
def distance (header align : Nat) : Nat :=
  align - (header + allocationHeaderSize) % align

theorem distance_bounds (header : Nat) (pos : 0 < align) :
    0 < distance header align ∧ distance header align ≤ align ∧
      align ∣ header + allocationHeaderSize + distance header align := by
  have rest := Nat.mod_lt (header + allocationHeaderSize) pos
  have split := Nat.div_add_mod (header + allocationHeaderSize) align
  unfold distance
  refine ⟨by omega, by omega, ?_⟩
  refine ⟨(header + allocationHeaderSize) / align + 1, ?_⟩
  rw [Nat.mul_add]
  omega

/-- The bytes by which all headers are shifted against the chunks. -/
def phase (params : HeapParameters) (chunks : Nat) : Nat :=
  (params.chunkSize - (chunks + allocationHeaderSize) %
    params.chunkSize) % params.chunkSize

section

variable {params : HeapParameters} {chunks : Nat}

theorem chunkSize_pos : 0 < params.chunkSize := Nat.lt_of_lt_of_le (by decide) params.header

theorem phase_lt : phase params chunks < params.chunkSize := Nat.mod_lt _ chunkSize_pos

theorem chunksFor_bounds (bound : bytes + params.chunkSize ≤ 2 ^ 64) :
    bytes ≤ chunksFor params bytes * params.chunkSize ∧
      chunksFor params bytes * params.chunkSize < bytes + params.chunkSize := by
  have pos : 0 < params.chunkSize := chunkSize_pos
  have sum : wordSub (wordAdd bytes params.chunkSize) 1 = bytes + params.chunkSize - 1 :=
    wordSub_wordAdd (by omega) (by decide) (by omega)
  unfold chunksFor
  rw [sum]
  have split := Nat.div_add_mod' (bytes + params.chunkSize - 1) params.chunkSize
  have rest := Nat.mod_lt (bytes + params.chunkSize - 1) pos
  omega

theorem mod_eq_phase (aligned : params.chunkSize ∣ chunks + allocationHeaderSize + offset) :
    offset % params.chunkSize = phase params chunks := by
  obtain ⟨_, _, multiple⟩ := distance_bounds chunks (@chunkSize_pos params)
  exact Nat.ModEq.add_left_cancel' _ ((Nat.modEq_zero_iff_dvd.mpr aligned).trans
    (Nat.modEq_zero_iff_dvd.mpr multiple).symm)

end

/-! ## One allocation -/

section

variable {params : HeapParameters} {heap : Heap}
  {firstChunk chunksNeeded chunkAlignment align : Nat}

theorem alignHeader_eq (pos : 0 < align) (bound : header + align < 2 ^ 64)
    (data : header + allocationHeaderSize < 2 ^ 64) :
    alignHeader header align = header + distance header align := by
  have rest := Nat.mod_lt (header + allocationHeaderSize) pos
  unfold alignHeader distance
  rw [wordAdd_eq data, wordSub_wordAdd (by omega) (by omega) (by omega)]
  omega

/-- A free run of chunks with room for the alignment. -/
structure Room (params : HeapParameters) (heap : Heap)
    (firstChunk chunksNeeded chunkAlignment align : Nat) : Prop where
  bound : heap.chunks + heap.totalChunks * params.chunkSize < 2 ^ 64
  size_eq : heap.bitmap.size = heap.totalChunks
  needed : 0 < chunksNeeded
  divides : params.chunkSize ∣ align
  positive : 0 < align
  slack : align ≤ chunkAlignment * params.chunkSize
  inside : firstChunk + (chunksNeeded + chunkAlignment) ≤ heap.totalChunks
  unset : heap.bitmap.Unset firstChunk (firstChunk + (chunksNeeded + chunkAlignment))

/-- The first chunk of the allocation in a free run. -/
def alignedChunk (params : HeapParameters) (heap : Heap) (firstChunk align : Nat) : Nat :=
  firstChunk + distance (heap.chunks + firstChunk * params.chunkSize) align /
      params.chunkSize

section

variable (room : Room params heap firstChunk chunksNeeded chunkAlignment align)
include room

theorem Room.bytes : firstChunk * params.chunkSize + chunksNeeded * params.chunkSize +
        chunkAlignment * params.chunkSize ≤ heap.totalChunks * params.chunkSize ∧
    params.chunkSize ≤ chunksNeeded * params.chunkSize := by
  have inside := Nat.mul_le_mul_right params.chunkSize room.inside
  rw [Nat.add_mul, Nat.add_mul] at inside
  exact ⟨by omega, Nat.le_mul_of_pos_left _ room.needed⟩

theorem Room.header_eq : heap.chunks + firstChunk * params.chunkSize +
        distance (heap.chunks + firstChunk * params.chunkSize) align =
      heap.chunks + alignedChunk params heap firstChunk align *
        params.chunkSize + phase params heap.chunks := by
  obtain ⟨_, _, aligned⟩ := distance_bounds
    (heap.chunks + firstChunk * params.chunkSize) room.positive
  unfold alignedChunk
  generalize distance (heap.chunks + firstChunk * params.chunkSize) align = moved at aligned
  have whole : params.chunkSize ∣ heap.chunks + allocationHeaderSize + moved := by
    have total := Nat.dvd_trans room.divides aligned
    have chunk := Nat.dvd_mul_left params.chunkSize firstChunk
    have rearranged : heap.chunks + firstChunk * params.chunkSize +
        allocationHeaderSize + moved = firstChunk * params.chunkSize +
            (heap.chunks + allocationHeaderSize + moved) := by
      omega
    rw [rearranged] at total
    exact (Nat.dvd_add_right chunk).mp total
  have split := Nat.div_add_mod' moved params.chunkSize
  rw [mod_eq_phase whole] at split
  rw [Nat.add_mul]
  omega

theorem Room.alignedChunk_bounds : firstChunk ≤ alignedChunk params heap firstChunk align ∧
      alignedChunk params heap firstChunk align ≤ firstChunk + chunkAlignment := by
  obtain ⟨_, near, _⟩ := distance_bounds
    (heap.chunks + firstChunk * params.chunkSize) room.positive
  refine ⟨Nat.le_add_right _ _, Nat.add_le_add_left ?_ _⟩
  apply Nat.div_le_of_le_mul
  rw [Nat.mul_comm params.chunkSize]
  exact Nat.le_trans near room.slack

theorem Room.chunks_inside :
    alignedChunk params heap firstChunk align + chunksNeeded ≤ heap.bitmap.size := by
  have bounds := room.alignedChunk_bounds
  have inside := room.inside
  rw [room.size_eq]
  omega

theorem Room.chunks_unset : heap.bitmap.Constant (alignedChunk params heap firstChunk align)
      chunksNeeded false := by
  have bounds := room.alignedChunk_bounds
  intro index above below
  exact room.unset index (by omega) (by omega)

theorem Room.stop_le : heap.chunks + alignedChunk params heap firstChunk align *
        params.chunkSize + phase params heap.chunks + chunksNeeded * params.chunkSize ≤
      heap.chunks + heap.totalChunks * params.chunkSize := by
  obtain ⟨_, near, _⟩ := distance_bounds
    (heap.chunks + firstChunk * params.chunkSize) room.positive
  have slack := room.slack
  have bytes := room.bytes.1
  rw [← room.header_eq]
  omega

/-- The memory after an allocation: the header holds the number of chunks,
and only bytes of the allocation have changed. -/
theorem Room.memory_spec (willInitialize : Bool) (header : Nat) :
    let later := scrubFresh params (heap.memory.store header 8 chunksNeeded)
      (header + allocationHeaderSize)
      (wordSub (chunksNeeded * params.chunkSize) allocationHeaderSize)
      willInitialize
    later.load header 8 = chunksNeeded ∧ Within header
        (header + chunksNeeded * params.chunkSize) heap.memory later := by
  have bound := room.bound
  obtain ⟨whole, chunk⟩ := room.bytes
  have enough := params.header
  have data : allocationHeaderSize = 16 := rfl
  have small : chunksNeeded < 2 ^ (8 * 8) := by
    have inside := room.inside
    have total : heap.totalChunks ≤ heap.totalChunks * params.chunkSize :=
      Nat.le_mul_of_pos_right _ chunkSize_pos
    omega
  have stored : Within header (header + chunksNeeded * params.chunkSize) heap.memory
        (heap.memory.store header 8 chunksNeeded) :=
    within_store.mono (Nat.le_refl _) (by omega)
  rw [wordSub_eq (by omega) (by omega)]
  unfold scrubFresh
  split
  · exact ⟨load_store small, stored⟩
  constructor
  · rw [(within_fill _).load (by omega)]
    exact load_store small
  · apply stored.trans
    exact (within_fill _).mono (by omega) (by omega)

theorem Room.allocateAt (willInitialize : Bool) :
    let aligned := alignedChunk params heap firstChunk align
    let header := heap.chunks + aligned * params.chunkSize + phase params heap.chunks
    (header + allocationHeaderSize) % align = 0 ∧
    ∃ memory : ByteMemory, memory.load header 8 = chunksNeeded ∧ Within header
        (header + chunksNeeded * params.chunkSize) heap.memory memory ∧
      heap.allocateAt params firstChunk chunksNeeded chunkAlignment
          align willInitialize =
        some (header + allocationHeaderSize, { heap with
          allocatedChunks := heap.allocatedChunks + chunksNeeded
          bitmap := heap.bitmap.withRange aligned chunksNeeded true
          memory := memory }) := by
  intro aligned header
  obtain ⟨moves, near, multiple⟩ := distance_bounds
    (heap.chunks + firstChunk * params.chunkSize) room.positive
  have headerEq : heap.chunks + firstChunk * params.chunkSize +
      distance (heap.chunks + firstChunk * params.chunkSize) align = header :=
    room.header_eq
  obtain ⟨whole, chunk⟩ := room.bytes
  obtain ⟨notBelow, notAbove⟩ := room.alignedChunk_bounds
  have bound := room.bound
  have slack := room.slack
  have enough := params.header
  have rearranged : heap.chunks + firstChunk * params.chunkSize + allocationHeaderSize +
        distance (heap.chunks + firstChunk * params.chunkSize)
          align = header + allocationHeaderSize := by
    omega
  rw [rearranged] at multiple
  have remainder := Nat.mod_eq_zero_of_dvd multiple
  have start : wordAdd heap.chunks (firstChunk * params.chunkSize) =
      heap.chunks + firstChunk * params.chunkSize :=
    wordAdd_eq (by omega)
  have moved : alignHeader (heap.chunks + firstChunk * params.chunkSize) align =
        header := by
    rw [alignHeader_eq room.positive (by omega) (by omega)]
    exact headerEq
  have chunkOf : wordSub header heap.chunks / params.chunkSize = aligned := by
    have offset : header - heap.chunks =
        phase params heap.chunks + aligned * params.chunkSize := by
      omega
    rw [wordSub_eq (by omega) (by omega), offset, Nat.add_mul_div_right _ _ chunkSize_pos,
      Nat.div_eq_of_lt phase_lt, Nat.zero_add]
  have pointer : wordAdd header allocationHeaderSize = header + allocationHeaderSize :=
    wordAdd_eq (by omega)
  have flipped : heap.bitmap.setRangeAndVerifyThatAllBitsFlip aligned chunksNeeded true =
        some (heap.bitmap.withRange aligned chunksNeeded true) :=
    setRange_some room.chunks_inside room.needed room.chunks_unset
  refine ⟨remainder, _, (room.memory_spec willInitialize
    header).1, (room.memory_spec willInitialize header).2, ?_⟩
  unfold Heap.allocateAt
  simp only [start, moved, chunkOf, pointer, flipped]
  have inRun : aligned + chunksNeeded ≤ firstChunk + chunksNeeded + chunkAlignment := by
    omega
  simp [notBelow, inRun, remainder, aligned]

end

end

end Heap

/-! ## The invariant -/

namespace HeapState

/-- Where a live allocation lies. -/
structure Placed (params : HeapParameters) (chunks totalChunks : Nat)
    (owned : Allocation) : Prop where
  pointer_eq : owned.pointer = chunks + owned.firstChunk * params.chunkSize +
    phase params chunks + allocationHeaderSize
  stop_le : owned.firstChunk * params.chunkSize + phase params chunks +
    owned.chunks * params.chunkSize ≤ totalChunks * params.chunkSize
  inside : owned.firstChunk + owned.chunks ≤ totalChunks
  enough : allocationHeaderSize + owned.size ≤ owned.chunks * params.chunkSize
  nonempty : allocationHeaderSize < owned.chunks * params.chunkSize
  aligned : owned.pointer % owned.alignment = 0

structure Invariant (params : HeapParameters) (state : HeapState) : Prop where
  bound : state.heap.chunks + state.heap.totalChunks * params.chunkSize < 2 ^ 64
  size_eq : state.heap.bitmap.size = state.heap.totalChunks
  counted : state.heap.allocatedChunks = state.heap.bitmap.bits.count true
  placed : ∀ owned ∈ state.live, Placed params state.heap.chunks
    state.heap.totalChunks owned
  stored : ∀ owned ∈ state.live, state.heap.memory.load owned.header 8 = owned.chunks
  apart : state.live.Pairwise fun owned other =>
    ∀ index, ¬ (owned.Holds index ∧ other.Holds index)
  exact : ∀ index, state.heap.bitmap.bitAt index = true ↔
    ∃ owned ∈ state.live, owned.Holds index

section

variable {chunks totalChunks : Nat}

section

variable (placed : Placed params chunks totalChunks owned)

include placed

theorem Placed.header_eq :
    owned.header = chunks + owned.firstChunk * params.chunkSize + phase params chunks := by
  rw [Allocation.header, placed.pointer_eq]
  omega

theorem Placed.pointer_header : owned.pointer = owned.header + allocationHeaderSize := by
  rw [placed.header_eq, placed.pointer_eq]

theorem Placed.chunks_pos : 0 < owned.chunks := by
  apply Nat.pos_of_ne_zero
  intro zero
  have nonempty := placed.nonempty
  rw [zero, Nat.zero_mul] at nonempty
  exact Nat.not_lt_zero _ nonempty

theorem Placed.stop_le_header (otherPlaced : Placed params chunks totalChunks other)
    (order : owned.firstChunk + owned.chunks ≤ other.firstChunk) :
    owned.stop params ≤ other.header := by
  have bytes := Nat.mul_le_mul_right params.chunkSize order
  rw [Nat.add_mul] at bytes
  rw [Allocation.stop, placed.header_eq, otherPlaced.header_eq]
  omega

theorem Placed.disjoint (otherPlaced : Placed params chunks totalChunks other)
    (apart : ∀ index, ¬ (owned.Holds index ∧ other.Holds index)) :
    owned.stop params ≤ other.header ∨ other.stop params ≤ owned.header := by
  by_cases order : owned.firstChunk + owned.chunks ≤ other.firstChunk
  · exact .inl (placed.stop_le_header otherPlaced order)
  refine .inr (otherPlaced.stop_le_header placed ?_)
  by_contra overlap
  have own := placed.chunks_pos
  have others := otherPlaced.chunks_pos
  apply apart (max owned.firstChunk other.firstChunk)
  unfold Allocation.Holds
  omega

theorem Placed.load_header {memory : ByteMemory} (within : Within start stop memory later)
    (apart : owned.stop params ≤ start ∨ stop ≤ owned.header) :
    later.load owned.header 8 = memory.load owned.header 8 := by
  apply within.load
  have nonempty := placed.nonempty
  have data : allocationHeaderSize = 16 := rfl
  rw [Allocation.stop] at apart
  omega

end

end

section

variable {params : HeapParameters} {size align : Nat}

/-- The alignment that is used is a multiple of the one asked for and of the
size of a chunk. -/
theorem atLeastChunkSize_spec (power : params.chunkSize.isPowerOfTwo)
    (chunkWord : params.chunkSize < 2 ^ 64) (alignPower : align.isPowerOfTwo)
    (alignWord : align < 2 ^ 64) :
    params.chunkSize ∣ atLeastChunkSize params align ∧ align ∣ atLeastChunkSize params align ∧
      0 < atLeastChunkSize params align ∧
      atLeastChunkSize params align + params.chunkSize ≤ 2 ^ 64 := by
  obtain ⟨chunkExponent, chunkEq⟩ := power
  obtain ⟨exponent, alignEq⟩ := alignPower
  have half : ∀ exponent : Nat, 2 ^ exponent < 2 ^ 64 → 2 ^ exponent ≤ 2 ^ 63 := by
    intro exponent small
    apply Nat.pow_le_pow_right (by decide)
    have below := (Nat.pow_lt_pow_iff_right (by decide)).mp small
    omega
  unfold atLeastChunkSize
  rw [chunkEq] at chunkWord ⊢
  rw [alignEq] at alignWord ⊢
  have chunkHalf := half _ chunkWord
  have alignmentHalf := half _ alignWord
  split
  next smaller =>
    have order := (Nat.pow_lt_pow_iff_right (by decide)).mp smaller
    exact ⟨Nat.dvd_refl _, Nat.pow_dvd_pow 2 (Nat.le_of_lt order), Nat.two_pow_pos _, by omega⟩
  next larger =>
    have order : chunkExponent ≤ exponent := by
      by_contra below
      exact larger (Nat.pow_lt_pow_right (by decide) (Nat.lt_of_not_le below))
    exact ⟨Nat.pow_dvd_pow 2 order, Nat.dvd_refl _, Nat.two_pow_pos _, by omega⟩

theorem Fits.needed (fits : Fits params size) :
    allocationHeaderSize + size ≤ chunksNeededFor params size * params.chunkSize ∧
      allocationHeaderSize < chunksNeededFor params size * params.chunkSize ∧
      0 < chunksNeededFor params size := by
  have small := fits.small
  have pos : 0 < params.chunkSize := chunkSize_pos
  have enough := params.header
  unfold chunksNeededFor
  rw [wordAdd_eq (by omega)]
  have bounds := (chunksFor_bounds small).1
  have data : 0 < allocationHeaderSize := by decide
  have nonzero : 0 < chunksFor params (size + allocationHeaderSize) := by
    apply Nat.pos_of_ne_zero
    intro zero
    rw [zero] at bounds
    omega
  have chunk := Nat.le_mul_of_pos_left params.chunkSize nonzero
  by_cases tight : params.chunkSize = allocationHeaderSize
  · have nonempty := fits.nonempty tight
    omega
  · omega

/-- Either the null pointer is returned, or there is room in a free run. -/
theorem Invariant.allocate (invariant : Invariant params state)
    (power : params.chunkSize.isPowerOfTwo) (chunkWord : params.chunkSize < 2 ^ 64)
    (fits : Fits params size) (alignPower : align.isPowerOfTwo) (alignWord : align < 2 ^ 64) :
    state.heap.allocate params size align willInitialize = some (none, state.heap) ∨
      ∃ firstChunk, Room params state.heap firstChunk (chunksNeededFor params size)
          (chunksFor params (atLeastChunkSize params align)) (atLeastChunkSize params align) ∧
        state.heap.allocate params size align willInitialize =
          (state.heap.allocateAt params firstChunk (chunksNeededFor params size)
            (chunksFor params (atLeastChunkSize params align)) (atLeastChunkSize params align)
            willInitialize).map fun (pointer, later) => (some pointer, later) := by
  obtain ⟨divides, _, pos, alignmentBound⟩ :=
    atLeastChunkSize_spec power chunkWord alignPower alignWord
  have slack := (chunksFor_bounds alignmentBound).1
  have needed := fits.needed.2.2
  unfold Heap.allocate
  dsimp only
  generalize Heap.chunksNeededFor params size = chunksNeeded at needed
  generalize atLeastChunkSize params align = aligned at divides pos slack
  generalize chunksFor params aligned = chunkAlignment at slack
  split
  · exact .inl rfl
  have chosen : ∃ answer, state.heap.chooseFirstChunk chunksNeeded chunkAlignment = some answer ∧
      ∀ first, answer = some first →
        first + (chunksNeeded + chunkAlignment) ≤ state.heap.bitmap.size ∧
          state.heap.bitmap.Unset first (first + (chunksNeeded + chunkAlignment)) := by
    unfold chooseFirstChunk
    split
    · refine ⟨_, rfl, ?_⟩
      intro first found
      obtain ⟨⟨start, length⟩, result, rfl⟩ := Option.map_eq_some_iff.mp found
      exact (findNextRangeOfUnsetBits_sound (by omega) (Nat.zero_le _) result).least
    next many =>
      have threshold : bitSize ≤ bestFitThreshold := by decide
      exact searchBestFit_sound (by omega) (Nat.zero_le _) (by omega) nofun
  obtain ⟨answer, result, sound⟩ := chosen
  rw [result]
  cases answer with
  | none => exact .inl rfl
  | some firstChunk =>
    obtain ⟨inside, unset⟩ := sound firstChunk rfl
    rw [invariant.size_eq] at inside
    refine .inr ⟨firstChunk, ⟨invariant.bound, invariant.size_eq,
      needed, divides, pos, slack, inside, unset⟩, ?_⟩
    rw [Option.map_eq_bind]
    rfl

/-- The allocation that is made in a free run. -/
def inRoom (params : HeapParameters) (heap : Heap)
    (firstChunk chunksNeeded used size align : Nat) : Allocation where
  pointer := heap.chunks + alignedChunk params heap firstChunk used *
    params.chunkSize + phase params heap.chunks + allocationHeaderSize
  size := size
  alignment := align
  firstChunk := alignedChunk params heap firstChunk used
  chunks := chunksNeeded

theorem ofPointer_placed {heap : Heap} (placed : Placed params heap.chunks heap.totalChunks owned)
    (stored : heap.memory.load owned.header 8 = owned.chunks) :
    .ofPointer params heap owned.pointer owned.size owned.alignment = owned := by
  have offset : owned.pointer - allocationHeaderSize - heap.chunks =
      phase params heap.chunks + owned.firstChunk * params.chunkSize := by
    rw [placed.pointer_eq]
    omega
  have first : (owned.pointer - allocationHeaderSize - heap.chunks) /
      params.chunkSize = owned.firstChunk := by
    rw [offset, Nat.add_mul_div_right _ _ chunkSize_pos, Nat.div_eq_of_lt phase_lt, Nat.zero_add]
  obtain ⟨pointer, size, align, firstChunk, chunks⟩ := owned
  simp only [Allocation.ofPointer, Allocation.mk.injEq, true_and]
  exact ⟨first, stored⟩

theorem Invariant.allocated {memory : ByteMemory} (invariant : Invariant params state)
    (placed : Placed params state.heap.chunks state.heap.totalChunks new)
    (unset : state.heap.bitmap.Constant new.firstChunk new.chunks false)
    (stored : memory.load new.header 8 = new.chunks)
    (within : Within new.header (new.stop params) state.heap.memory memory) :
    Invariant params ⟨{ state.heap with
        allocatedChunks := state.heap.allocatedChunks + new.chunks
        bitmap := state.heap.bitmap.withRange new.firstChunk new.chunks true
        memory := memory }, new :: state.live⟩ := by
  have inside : new.firstChunk + new.chunks ≤ state.heap.bitmap.size := by
    rw [invariant.size_eq]
    exact placed.inside
  have free : ∀ other ∈ state.live, ∀ index, ¬ (new.Holds index ∧ other.Holds index) := by
    intro other member index ⟨own, others⟩
    have set := (invariant.exact index).mpr ⟨other, member, others⟩
    rw [unset index own.1 own.2] at set
    cases set
  refine ⟨invariant.bound, (size_withRange inside).trans invariant.size_eq, ?_,
    List.forall_mem_cons.mpr ⟨placed, invariant.placed⟩,
    List.forall_mem_cons.mpr ⟨stored, ?_⟩, List.pairwise_cons.mpr ⟨free, invariant.apart⟩, ?_⟩
  · rw [invariant.counted]
    exact (count_set unset inside).symm
  · intro owned old
    have oldPlaced := invariant.placed owned old
    have apart := placed.disjoint oldPlaced (free owned old)
    exact (oldPlaced.load_header within apart.symm).trans (invariant.stored owned old)
  · intro index
    rw [bitAt_withRange inside, List.exists_mem_cons_iff, ← invariant.exact index, Allocation.Holds]
    split <;> simp [*]

end

section

variable {next : HeapState} {size : Nat}

section

variable (invariant : Invariant params state)

include invariant

/-- What a successful allocation does, and that no allocation fails. -/
theorem Invariant.allocate_step (power : params.chunkSize.isPowerOfTwo)
    (chunkWord : params.chunkSize < 2 ^ 64) (fits : Fits params size)
    (alignPower : align.isPowerOfTwo) (alignWord : align < 2 ^ 64) :
    ∃ answer later, state.heap.allocate params size align willInitialize = some (answer, later) ∧
      (answer = none → later = state.heap) ∧
      ∀ pointer, answer = some pointer → Invariant params ⟨later,
          .ofPointer params later pointer size align :: state.live⟩ := by
  rcases invariant.allocate power chunkWord fits alignPower
    alignWord with refused | ⟨firstChunk, room, result⟩
  · exact ⟨none, state.heap, refused, fun _ => rfl, nofun⟩
  obtain ⟨remainder, memory, stored, within, success⟩ := room.allocateAt willInitialize
  rw [success] at result
  refine ⟨some _, _, result, nofun, ?_⟩
  rintro pointer ⟨⟩
  obtain ⟨enough, nonempty, _⟩ := fits.needed
  obtain ⟨_, multiple, _, _⟩ := atLeastChunkSize_spec power chunkWord alignPower alignWord
  have placed : Placed params state.heap.chunks state.heap.totalChunks (inRoom params
      state.heap firstChunk (chunksNeededFor params size)
      (atLeastChunkSize params align) size align) := by
    refine ⟨rfl, ?_, room.chunks_inside.trans_eq invariant.size_eq, enough, nonempty,
      Nat.mod_eq_zero_of_dvd (Nat.dvd_trans multiple (Nat.dvd_of_mod_eq_zero remainder))⟩
    have stop := room.stop_le
    dsimp only [inRoom]
    omega
  have allocated := invariant.allocated placed room.chunks_unset stored within
  have described := ofPointer_placed (allocated.placed _ List.mem_cons_self)
    (allocated.stored _ List.mem_cons_self)
  exact (congrArg (fun new => Invariant params ⟨_, new :: state.live⟩) described).mpr allocated

section

variable (live : owned ∈ state.live)

include live

theorem Invariant.chunks_set : state.heap.bitmap.Constant owned.firstChunk owned.chunks true := by
  intro index above below
  exact (invariant.exact index).mpr ⟨owned, live, above, below⟩

theorem Invariant.inside : owned.firstChunk + owned.chunks ≤ state.heap.bitmap.size := by
  rw [invariant.size_eq]
  exact (invariant.placed owned live).inside

theorem Invariant.deallocate :
    ∃ memory : ByteMemory, Within owned.header (owned.stop params) state.heap.memory memory ∧
      state.heap.deallocate params owned.pointer = some { state.heap with
          allocatedChunks := state.heap.allocatedChunks - owned.chunks
          bitmap := state.heap.bitmap.withRange owned.firstChunk owned.chunks false
          memory := memory } := by
  have placed := invariant.placed owned live
  have headerEq := placed.header_eq
  have pointerEq := placed.pointer_header
  have stopLe := placed.stop_le
  have nonempty := placed.nonempty
  have bound := invariant.bound
  have data : 0 < allocationHeaderSize := by decide
  have set := invariant.chunks_set live
  have inside := invariant.inside live
  have nonzero : owned.pointer ≠ 0 := by omega
  have header : wordSub owned.pointer allocationHeaderSize = owned.header := by
    rw [wordSub_eq (by omega) (by omega)]
    rfl
  have limit : state.heap.chunksEnd params = state.heap.chunks +
      state.heap.totalChunks * params.chunkSize :=
    wordAdd_eq bound
  have start : wordSub owned.header state.heap.chunks /
      params.chunkSize = owned.firstChunk := by
    have described := congrArg Allocation.firstChunk
      (ofPointer_placed placed (invariant.stored owned live))
    rw [wordSub_eq (by omega) (by omega)]
    exact described
  have first : state.heap.bitmap.get owned.firstChunk = some true :=
    bitAt_eq_true.mp (set _ (Nat.le_refl _) (Nat.lt_add_of_pos_right placed.chunks_pos))
  have bytes : owned.chunks * params.chunkSize % 2 ^ 64 =
      owned.chunks * params.chunkSize :=
    Nat.mod_eq_of_lt (by omega)
  have stop : wordAdd owned.header (owned.chunks * params.chunkSize) =
        owned.header + owned.chunks * params.chunkSize :=
    wordAdd_eq (by omega)
  have flipped : state.heap.bitmap.setRangeAndVerifyThatAllBitsFlip
      owned.firstChunk owned.chunks false = _ :=
    setRange_some inside placed.chunks_pos set
  have enough : owned.chunks ≤ state.heap.allocatedChunks := by
    have cleared := count_clear set inside
    rw [invariant.counted]
    omega
  refine ⟨scrubFreed params state.heap.memory owned.header
    (owned.chunks * params.chunkSize), ?_, ?_⟩
  · unfold scrubFreed
    split
    · exact Within.refl _
    · exact within_fill _
  · unfold Heap.deallocate
    rw [if_neg nonzero]
    have above : state.heap.chunks ≤ owned.header := by omega
    have below : owned.pointer < state.heap.chunks +
        state.heap.totalChunks * params.chunkSize := by
      omega
    have ends : owned.header + owned.chunks * params.chunkSize ≤ state.heap.chunks +
          state.heap.totalChunks * params.chunkSize := by
      omega
    simp only [header, limit, start, first, invariant.stored owned live, bytes, stop, flipped]
    simp [above, below, ends, enough]

theorem Invariant.apart_of_mem_erase (member : other ∈ state.live.erase owned) :
    other ∈ state.live ∧ ∀ index, ¬ (owned.Holds index ∧ other.Holds index) := by
  have distinct : state.live.Nodup := by
    apply invariant.apart.imp_of_mem
    rintro first second firstMember _ apart rfl
    have pos := (invariant.placed first firstMember).chunks_pos
    have holds : first.Holds first.firstChunk := ⟨Nat.le_refl _, Nat.lt_add_of_pos_right pos⟩
    exact apart first.firstChunk ⟨holds, holds⟩
  obtain ⟨differ, old⟩ := distinct.mem_erase_iff.mp member
  have symmetric : Std.Symm fun first second : Allocation =>
      ∀ index, ¬ (first.Holds index ∧ second.Holds index) :=
    ⟨fun _ _ apart index both => apart index both.symm⟩
  exact ⟨old, invariant.apart.forall live old differ.symm⟩

theorem Invariant.deallocate_step :
    ∃ later, state.heap.deallocate params owned.pointer = some later ∧
      Invariant params ⟨later, state.live.erase owned⟩ := by
  obtain ⟨memory, within, result⟩ := invariant.deallocate live
  refine ⟨_, result, ?_⟩
  have placed := invariant.placed owned live
  have set := invariant.chunks_set live
  have inside := invariant.inside live
  have others : ∀ other ∈ state.live.erase owned, other ∈ state.live ∧
      ∀ index, ¬ (owned.Holds index ∧ other.Holds index) :=
    fun other member => invariant.apart_of_mem_erase live member
  refine ⟨invariant.bound, ?_, ?_, ?_, ?_, ?_, ?_⟩
  · exact (size_withRange inside).trans invariant.size_eq
  · have cleared := count_clear set inside
    rw [invariant.counted]
    exact Nat.sub_eq_of_eq_add cleared.symm
  · intro other member
    exact invariant.placed other (others other member).1
  · intro other member
    obtain ⟨old, apart⟩ := others other member
    have otherPlaced := invariant.placed other old
    rw [otherPlaced.load_header within
      (placed.disjoint otherPlaced apart).symm, invariant.stored other old]
  · exact invariant.apart.sublist List.erase_sublist
  · intro index
    rw [bitAt_withRange inside]
    constructor
    · intro remains
      split at remains
      · cases remains
      next outside =>
        obtain ⟨other, member, holds⟩ := (invariant.exact index).mp remains
        have differ : other ≠ owned := by
          rintro rfl
          exact outside holds
        exact ⟨other, (List.mem_erase_of_ne differ).mpr member, holds⟩
    · rintro ⟨other, member, holds⟩
      obtain ⟨old, apart⟩ := others other member
      split
      next own => exact absurd ⟨own, holds⟩ (apart index)
      next => exact (invariant.exact index).mpr ⟨other, old, holds⟩

theorem Invariant.write_step {memory : ByteMemory}
    (within : Within owned.pointer (owned.stop params) state.heap.memory memory) :
    Invariant params ⟨{ state.heap with memory := memory }, state.live⟩ := by
  refine ⟨invariant.bound, invariant.size_eq, invariant.counted,
    invariant.placed, ?_, invariant.apart, invariant.exact⟩
  intro other member
  rw [← invariant.stored other member]
  have placed := invariant.placed owned live
  have otherPlaced := invariant.placed other member
  by_cases same : other = owned
  · rw [same]
    apply within.load
    have data : allocationHeaderSize = 16 := rfl
    have pointerEq := placed.pointer_header
    omega
  · obtain ⟨_, apart⟩ := invariant.apart_of_mem_erase live ((List.mem_erase_of_ne same).mpr member)
    have pointerEq := placed.pointer_header
    apply otherPlaced.load_header within
    have bytes := placed.disjoint otherPlaced apart
    omega

end

end

section

variable (power : params.chunkSize.isPowerOfTwo) (chunkWord : params.chunkSize < 2 ^ 64)
  (invariant : Invariant params state)

include power chunkWord invariant

theorem Invariant.step (step : Step params state next) : Invariant params next := by
  cases step with
  | allocate fits alignPower alignWord result =>
    obtain ⟨answer, heap, success, _, allocated⟩ :=
      invariant.allocate_step power chunkWord fits alignPower alignWord
    rw [result] at success
    cases success
    exact allocated _ rfl
  | refuse fits alignPower alignWord result =>
    obtain ⟨answer, heap, success, unchanged, _⟩ :=
      invariant.allocate_step power chunkWord fits alignPower alignWord
    rw [result] at success
    cases success
    rw [unchanged rfl]
    exact invariant
  | deallocate live result =>
    obtain ⟨heap, success, deallocated⟩ := invariant.deallocate_step live
    rw [result] at success
    cases success
    exact deallocated
  | write live within => exact invariant.write_step live within

theorem Invariant.run (run : Relation.ReflTransGen (Step params) state next) :
    Invariant params next := by
  induction run with
  | refl => exact invariant
  | tail _ step ih => exact ih.step power chunkWord step

theorem Invariant.safe : Safe params state := by
  refine ⟨?_, ?_, ?_, ?_, ?_, invariant.counted, invariant.exact, ?_, ?_⟩
  · apply invariant.apart.imp_of_mem
    intro owned other member otherMember apart
    exact (invariant.placed owned member).disjoint (invariant.placed other otherMember) apart
  · intro owned member
    have placed := invariant.placed owned member
    have stop := placed.stop_le
    rw [Allocation.stop, placed.header_eq]
    omega
  · intro owned member
    exact (ofPointer_placed (invariant.placed owned member)
      (invariant.stored owned member)).symm
  · intro owned member
    exact (invariant.placed owned member).aligned
  · intro owned member
    have placed := invariant.placed owned member
    have enough := placed.enough
    rw [Allocation.stop, placed.pointer_header]
    omega
  · intro size align willInitialize fits alignPower alignWord
    obtain ⟨answer, later, success, _⟩ := invariant.allocate_step power
      chunkWord fits alignPower alignWord
    rw [success]
    rfl
  · intro owned member
    obtain ⟨later, success, _⟩ := invariant.deallocate_step member
    rw [success]
    rfl

end

end

section

variable {params : HeapParameters} {memory : ByteMemory} {start memorySize : Nat}

/-- The bytes where the bitmap is put are zero. -/
def Zeroed (params : HeapParameters) (memory : ByteMemory) (start memorySize : Nat) : Prop :=
  ∀ place, start + calculateChunks params memorySize *
      params.chunkSize ≤ place → place < start + memorySize →
    memory place = 0

theorem Invariant.create (startWord : start < 2 ^ 64) (block : start + memorySize ≤ 2 ^ 64)
    (zeroed : Zeroed params memory start memorySize) :
    ∃ heap, create params memory start memorySize = some heap ∧ Invariant params ⟨heap, []⟩ := by
  have room : calculateChunks params memorySize * params.chunkSize +
      calculateChunks params memorySize ≤ memorySize := by
    have divided := Nat.div_mul_le_self memorySize (params.chunkSize + 1)
    exact divided
  unfold Zeroed at zeroed
  unfold Heap.create
  generalize Heap.calculateChunks params memorySize = total at room zeroed
  have fits : total * params.chunkSize + (total + 7) / 8 ≤ memorySize := by
    omega
  have clear : ∀ bit ∈ (bitmapAt memory
      (start + total * params.chunkSize) total).bits, bit = false := by
    intro bit member
    obtain ⟨index, inside, rfl⟩ := List.mem_map.mp member
    have below := List.mem_range.mp inside
    rw [zeroed _ (by omega) (by omega)]
    simp
  refine ⟨_, by simp only [fits, decide_true, verify_true]; rfl, ?_⟩
  refine ⟨?_, ?_, ?_, by simp, by simp, .nil, ?_⟩
  · change start + total * params.chunkSize < 2 ^ 64
    cases total with
    | zero =>
      rw [Nat.zero_mul]
      exact startWord
    | succ previous => omega
  · simp [size, bitmapAt]
  · symm
    apply List.count_eq_zero.mpr
    intro set
    cases clear true set
  · intro index
    constructor
    · intro set
      have member := List.mem_of_getElem? (bitAt_eq_true.mp set)
      cases clear true member
    · rintro ⟨_, ⟨⟩, _⟩

/-- A heap over any zeroed block keeps its promises, whatever its users do. -/
theorem reachable_safe (power : params.chunkSize.isPowerOfTwo)
    (chunkWord : params.chunkSize < 2 ^ 64) (startWord : start < 2 ^ 64)
    (block : start + memorySize ≤ 2 ^ 64) (zeroed : Zeroed params memory start memorySize) :
    ∃ heap, Heap.create params memory start memorySize = some heap ∧
      ∀ state, Relation.ReflTransGen (Step params) ⟨heap, []⟩ state → Safe params state := by
  obtain ⟨heap, created, initial⟩ := Invariant.create startWord block zeroed
  exact ⟨heap, created, fun state run =>
    (initial.run power chunkWord run).safe power chunkWord⟩

/-- The parameters of `kmalloc`. -/
def kmallocParameters : HeapParameters where
  chunkSize := 64
  scrubByteAlloc := 0xbb#8
  scrubByteFree := 0xaa#8
  header := by decide

/-- A block of 1040 zero bytes: sixteen chunks and the bitmap. -/
def smallHeap : Heap where
  totalChunks := 16
  allocatedChunks := 0
  chunks := 0x1000
  bitmap := ⟨List.replicate 16 false⟩
  memory := fun _ => 0#8

theorem reachable_safe_kmalloc :
    ∃ later, smallHeap.allocate kmallocParameters 100 128 false = some (some 0x1080, later) ∧
      Safe kmallocParameters ⟨later, [.ofPointer kmallocParameters later 0x1080 100 128]⟩ := by
  obtain ⟨heap, created, safe⟩ := @reachable_safe kmallocParameters
    (fun _ => 0#8) 0x1000 1040 ⟨6, rfl⟩ (by decide) (by decide) (by decide)
    fun _ _ _ => rfl
  have same : smallHeap = heap := Option.some.inj created
  rw [← same] at safe
  have answer : (smallHeap.allocate kmallocParameters 100 128 false).map
      Prod.fst = some (some 0x1080) := by
    decide +kernel
  obtain ⟨⟨_, later⟩, result, pointer⟩ := Option.map_eq_some_iff.mp answer
  dsimp only at pointer
  rw [pointer] at result
  exact ⟨later, result, safe _ (.single (.allocate ⟨by decide, nofun⟩ ⟨7, rfl⟩ (by decide) result))⟩

/-- A size near the end of the word wraps around, and 64 bytes are handed out
for it.  In a heap of chunks of 16 bytes an allocation of no bytes in the last
chunk cannot be given back.  With chunks of 24 bytes a pointer is not aligned
to 16 bytes. -/
theorem allocate_unsafe : (smallHeap.allocate kmallocParameters (2 ^ 64 - 1) 64 true).map
        (fun result => (result.1, (Allocation.ofPointer kmallocParameters
          result.2 0x1040 (2 ^ 64 - 1) 64).stop kmallocParameters)) =
      some (some 0x1040, 0x1030 + 64) ∧
    (((Heap.mk 2 0 0x1000 ⟨[false, false]⟩ fun _ => 0#8).allocate
        ⟨16, 0#8, 0#8, by decide⟩ 0 16 true).map Prod.fst =
      some (some 0x1020) ∧
      ((Heap.mk 2 0 0x1000 ⟨[false, false]⟩ fun _ => 0#8).allocate
        ⟨16, 0#8, 0#8, by decide⟩ 0 16 true).bind (fun result =>
          (result.2.deallocate ⟨16, 0#8, 0#8, by decide⟩ 0x1020).map Heap.totalChunks) = none) ∧
    (((Heap.mk 4 0 0x1010 ⟨[false, false, false, false]⟩
        fun _ => 0#8).allocate ⟨24, 0#8, 0#8, by decide⟩ 1 16 true).map
          Prod.fst = some (some 0x1038) ∧ 0x1038 % 16 ≠ 0) := by
  decide +kernel

/-- A live allocation stays with all its bytes, or it is the one that is given
back, or the one that is written to, and then its header stays. -/
def Isolated (params : HeapParameters) (state next : HeapState) : Prop :=
  ∀ owned ∈ state.live,
    (owned ∈ next.live ∧ ∀ place, owned.header ≤ place →
      place < owned.stop params → next.heap.memory place = state.heap.memory place) ∨
    next.live = state.live.erase owned ∨
    next.live = state.live ∧ Within owned.pointer (owned.stop params)
      state.heap.memory next.heap.memory

theorem Invariant.step_isolated (power : params.chunkSize.isPowerOfTwo)
    (chunkWord : params.chunkSize < 2 ^ 64) (invariant : Invariant params state)
    (step : Step params state next) : Isolated params state next := by
  intro owned live
  have later := (invariant.step power chunkWord step).safe power chunkWord
  -- What is changed lies in the bytes of one owner.
  have kept : ∀ {owner : Allocation} {memory : ByteMemory},
      (owner.stop params ≤ owned.header ∨ owned.stop params ≤ owner.header) →
      Within owner.header (owner.stop params) state.heap.memory memory →
      ∀ place, owned.header ≤ place → place < owned.stop params →
        memory place = state.heap.memory place := by
    intro owner memory disjoint within place _ _
    exact within place (by omega)
  have apart : ∀ {owner}, owner ∈ state.live → owned ∈ state.live.erase owner →
      owner.stop params ≤ owned.header ∨ owned.stop params ≤ owner.header := by
    intro owner ownerLive remains
    exact (invariant.placed _ ownerLive).disjoint (invariant.placed _ live)
      (invariant.apart_of_mem_erase ownerLive remains).2
  cases step with
  | allocate fits alignPower alignWord result =>
    have disjoint := (List.pairwise_cons.mp later.disjoint).1 owned live
    refine .inl ⟨List.mem_cons_of_mem _ live, kept disjoint ?_⟩
    rcases invariant.allocate power chunkWord fits alignPower
      alignWord with refused | ⟨firstChunk, room, success⟩
    · rw [refused] at result
      cases result
    · obtain ⟨_, memory, stored, within, allocated⟩ := room.allocateAt _
      rw [success, allocated] at result
      cases result
      rwa [← stored] at within
  | refuse fits alignPower alignWord result =>
    obtain ⟨_, _, success, unchanged, _⟩ :=
      invariant.allocate_step power chunkWord fits alignPower alignWord
    rw [result] at success
    cases success
    rw [unchanged rfl]
    exact .inl ⟨live, fun _ _ _ => rfl⟩
  | @deallocate _ owner ownerLive result =>
    obtain ⟨memory, within, success⟩ := invariant.deallocate ownerLive
    rw [result] at success
    cases success
    by_cases same : owned = owner
    · exact .inr (.inl (by rw [same]))
    · have remains := (List.mem_erase_of_ne same).mpr live
      exact .inl ⟨remains, kept (apart ownerLive remains) within⟩
  | @write _ owner ownerLive within =>
    by_cases same : owned = owner
    · exact .inr (.inr ⟨rfl, by rwa [same]⟩)
    · have remains := (List.mem_erase_of_ne same).mpr live
      exact .inl ⟨live, kept (apart ownerLive remains)
        (within.mono (Nat.sub_le _ _) (Nat.le_refl _))⟩

/-- No step of a heap's users reaches the bytes of an allocation that is not theirs. -/
theorem reachable_isolated (power : params.chunkSize.isPowerOfTwo)
    (chunkWord : params.chunkSize < 2 ^ 64) (startWord : start < 2 ^ 64)
    (block : start + memorySize ≤ 2 ^ 64) (zeroed : Zeroed params memory start memorySize) :
    ∃ heap, Heap.create params memory start memorySize = some heap ∧
      ∀ state next, Relation.ReflTransGen (Step params) ⟨heap, []⟩ state →
        Step params state next → Isolated params state next := by
  obtain ⟨heap, created, initial⟩ := Invariant.create startWord block zeroed
  exact ⟨heap, created, fun state next run =>
    (initial.run power chunkWord run).step_isolated power chunkWord⟩

theorem reachable_isolated_kmalloc :
    ∃ heap, Heap.create kmallocParameters (fun _ => 0#8) 0x1000 1040 = some heap ∧
      ∀ state next, Relation.ReflTransGen (Step kmallocParameters) ⟨heap, []⟩ state →
        Step kmallocParameters state next → Isolated kmallocParameters state next :=
  reachable_isolated ⟨6, rfl⟩ (by decide) (by decide) (by decide) fun _ _ _ => rfl

end

end HeapState

end MixUpOS.Kernel
