import MixUpOS.Kernel.Memory.PhysicalZonePages

/-!
# Runs of a physical zone

A run alternates allocations with frees of live blocks.  The owner of a block
may free it whole, or split it into its pages and free those one by one, and
may write over the entries of the pages it holds.
-/

namespace MixUpOS.Kernel.Memory

open Library Library.Buddy PhysicalZone Finset

/-- A block by its first chunk and its order. -/
structure Block where
  index : Nat
  order : Nat
  deriving DecidableEq, Repr

namespace Block

def size (block : Block) : Nat := 2 * 2 ^ block.order

def Covers (block : Block) (chunk : Nat) : Prop :=
  block.index ≤ chunk ∧ chunk < block.index + block.size

/-- No chunk lies in both blocks. -/
def Apart (block other : Block) : Prop := ∀ chunk, ¬(block.Covers chunk ∧ other.Covers chunk)

/-- The pages of the block, counted from the zone's base. -/
def pages (block : Block) : Finset Nat :=
  Finset.Ico (block.index / 2) (block.index / 2 + 2 ^ block.order)

/-- The single pages of the block as blocks of their own. -/
def split (block : Block) : List Block :=
  (List.range (2 ^ block.order)).map fun page => ⟨block.index + 2 * page, 0⟩

/-- The block with the given number among those of its order. -/
def ofNumber (order number : Nat) : Block := ⟨number * (2 * 2 ^ order), order⟩

variable {order : Nat}

theorem covers_ofNumber :
    (ofNumber order number).Covers chunk ↔ chunk / 2 ∈ blockPages order number := by
  have pos : 0 < 2 * 2 ^ order := by positivity
  have next : number * (2 * 2 ^ order) + 2 * 2 ^ order = (number + 1) * (2 * 2 ^ order) := by ring
  rw [mem_blockPages, Nat.div_div_eq_div_mul, Covers, size, ofNumber, next,
    ← Nat.le_div_iff_mul_le pos, ← Nat.div_lt_iff_lt_mul pos]
  omega

theorem apart_ofNumber
    (disjoint : Disjoint (blockPages order number) (blockPages other otherNumber)) :
    (ofNumber order number).Apart (ofNumber other otherNumber) := by
  rintro chunk ⟨first, second⟩
  exact disjoint_left.mp disjoint (covers_ofNumber.mp first) (covers_ofNumber.mp second)

theorem ofNumber_half (order number : Nat) :
    (ofNumber order number).index / 2 = number * 2 ^ order := by
  have double : number * (2 * 2 ^ order) = 2 * (number * 2 ^ order) := by ring
  change number * (2 * 2 ^ order) / 2 = _
  rw [double, Nat.mul_div_cancel_left _ (by omega)]

theorem pages_ofNumber (order number : Nat) :
    (ofNumber order number).pages = blockPages order number := by
  rw [pages, ofNumber_half, blockPages, Nat.succ_mul]
  rfl

theorem card_pages (block : Block) : block.pages.card = 2 ^ block.order := by
  rw [pages, Nat.card_Ico, Nat.add_sub_cancel_left]

theorem split_ofNumber (order number : Nat) :
    (ofNumber order number).split = (List.range (2 ^ order)).map fun page =>
        ofNumber 0 (number * 2 ^ order + page) := by
  refine List.map_congr_left fun page _ => ?_
  simp only [ofNumber, mk.injEq, and_true]
  ring

theorem pages_single (page : Nat) : (ofNumber 0 page).pages = {page} := by
  ext candidate
  rw [pages_ofNumber, mem_blockPages, mem_singleton, Nat.pow_zero, Nat.div_one]

end Block

section

/-- The pages of the given blocks. -/
def livePages (live : List Block) : Finset Nat :=
  live.foldr (fun block pages => block.pages ∪ pages) ∅

variable {live other : List Block} {block : Block}

@[simp] theorem livePages_nil : livePages [] = ∅ := rfl

@[simp] theorem livePages_cons : livePages (block :: live) = block.pages ∪ livePages live := rfl

theorem mem_livePages : page ∈ livePages live ↔ ∃ block ∈ live, page ∈ block.pages := by
  induction live with
  | nil => simp
  | cons head tail ih => simp [ih]

theorem livePages_append : livePages (live ++ other) = livePages live ∪ livePages other := by
  induction live with
  | nil => simp
  | cons head tail ih => simp [ih]

theorem livePages_perm (same : live.Perm other) : livePages live = livePages other := by
  ext page
  simp only [mem_livePages, same.mem_iff]

theorem disjoint_livePages :
    Disjoint pages (livePages live) ↔ ∀ block ∈ live, Disjoint pages block.pages := by
  induction live with
  | nil => simp
  | cons head tail ih => simp [ih]

/-- Blocks none of which share a page. -/
def PagesApart (live : List Block) : Prop :=
  live.Pairwise fun block other => Disjoint block.pages other.pages

theorem PagesApart.perm (apart : PagesApart live) (same : live.Perm other) : PagesApart other :=
  same.pairwise apart fun disjoint => disjoint.symm

theorem pagesApart_cons :
    PagesApart (block :: live) ↔ Disjoint block.pages (livePages live) ∧ PagesApart live := by
  rw [PagesApart, List.pairwise_cons, disjoint_livePages]
  rfl

theorem PagesApart.append (apart : PagesApart live) (otherApart : PagesApart other)
    (disjoint : Disjoint (livePages live) (livePages other)) : PagesApart (live ++ other) := by
  refine List.pairwise_append.mpr ⟨apart, otherApart, ?_⟩
  intro first firstLive second secondLive
  refine disjoint_left.mpr fun page inFirst inSecond => ?_
  exact disjoint_left.mp disjoint (mem_livePages.mpr ⟨first, firstLive, inFirst⟩)
    (mem_livePages.mpr ⟨second, secondLive, inSecond⟩)

theorem PagesApart.card (apart : PagesApart live) :
    2 * (livePages live).card = (live.map Block.size).sum := by
  induction live with
  | nil => rfl
  | cons head tail ih =>
    obtain ⟨disjoint, tailApart⟩ := pagesApart_cons.mp apart
    rw [livePages_cons, card_union_of_disjoint disjoint,
      Block.card_pages, Nat.mul_add, ih tailApart]
    rfl

theorem livePages_split (order number : Nat) :
    livePages (Block.ofNumber order number).split = blockPages order number := by
  ext page
  simp only [mem_livePages, Block.split_ofNumber, List.mem_map,
    List.mem_range, blockPages, mem_Ico, Nat.succ_mul]
  constructor
  · rintro ⟨_, ⟨offset, below, rfl⟩, member⟩
    rw [Block.pages_single, mem_singleton] at member
    omega
  · rintro ⟨above, below⟩
    refine ⟨_, ⟨page - number * 2 ^ order, by omega, rfl⟩, ?_⟩
    rw [Block.pages_single, mem_singleton]
    omega

theorem pagesApart_split (order number : Nat) : PagesApart (Block.ofNumber order number).split := by
  rw [Block.split_ofNumber, PagesApart, List.pairwise_map]
  refine (List.pairwise_lt_range (n := 2 ^ order)).imp ?_
  intro first second less
  rw [Block.pages_single, Block.pages_single, disjoint_singleton]
  omega

end

/-- A zone and the blocks that its callers hold. -/
structure Tenancy where
  zone : PhysicalZone
  live : List Block

namespace Tenancy

/-- The block that a caller holds after `allocate_block` returned the
address. -/
def blockAt (zone : PhysicalZone) (address order : Nat) : Block :=
  ⟨(address - zone.baseAddress) / zoneChunkSize, order⟩

def addressOf (zone : PhysicalZone) (block : Block) : Nat :=
  zone.baseAddress + block.index * zoneChunkSize

inductive Step : Tenancy → Tenancy → Prop where
  | allocate {zone result : PhysicalZone} {live : List Block} {order address : Nat} :
      zone.allocateBlock order = some (result, some address) →
      Step ⟨zone, live⟩ ⟨result, blockAt zone address order :: live⟩
  | refuse {zone result : PhysicalZone} {live : List Block} {order : Nat} :
      zone.allocateBlock order = some (result, none) →
      Step ⟨zone, live⟩ ⟨result, live⟩
  | free {zone result : PhysicalZone} {live : List Block} {block : Block} : block ∈ live →
      zone.deallocateBlock (addressOf zone block) block.order = some result →
      Step ⟨zone, live⟩ ⟨result, live.erase block⟩
  | split {zone : PhysicalZone} {live : List Block} {block : Block} : block ∈ live →
      Step ⟨zone, live⟩ ⟨zone, block.split ++ live.erase block⟩
  | scribble {zone : PhysicalZone} {live : List Block} {block : Block}
      {page : Nat} {entry : FreelistEntry} :
      block ∈ live → page ∈ block.pages →
      Step ⟨zone, live⟩ ⟨{ zone with entries := Function.update zone.entries page entry }, live⟩

/-- The states of a zone of `pageCount` pages. -/
def Reachable (pageCount : Nat) (state : Tenancy) : Prop :=
  ∃ entries baseAddress zone, create entries baseAddress pageCount = some zone ∧
    Relation.ReflTransGen Step ⟨zone, []⟩ state

/-- The used pages of the zone are those of its live blocks. -/
structure Sound (top : Nat) (state : Tenancy) : Prop where
  accounts : state.zone.Accounts top (livePages state.live)
  shape : ∀ block ∈ state.live, ∃ order number, block = Block.ofNumber order number ∧ order ≤ top ∧
      number < 2 ^ (top - order)
  apart : PagesApart state.live

variable {pageCount top : Nat} {state next : Tenancy}

theorem addressOf_ofNumber (zone : PhysicalZone) (order number : Nat) :
    addressOf zone (Block.ofNumber order number) = zone.blockAddress order number := by
  have chunk : zoneChunkSize = 2048 := rfl
  have page : pageSize = 4096 := rfl
  have double : number * (2 * 2 ^ order) = 2 * (number * 2 ^ order) := by ring
  simp only [addressOf, blockAddress, Block.ofNumber, chunk, page, double]
  omega

theorem blockAt_blockAddress (zone : PhysicalZone) (order number : Nat) :
    blockAt zone (zone.blockAddress order number) order = Block.ofNumber order number := by
  rw [← addressOf_ofNumber, blockAt, addressOf, Nat.add_sub_cancel_left,
    Nat.mul_div_cancel _ (by decide)]
  rfl

theorem Sound.focus (sound : Sound top state) (member : block ∈ state.live) :
    livePages state.live = block.pages ∪ livePages (state.live.erase block) ∧
    Disjoint block.pages (livePages (state.live.erase block)) ∧
    PagesApart (state.live.erase block) := by
  have front := List.perm_cons_erase member
  obtain ⟨disjoint, apart⟩ := pagesApart_cons.mp (sound.apart.perm front)
  exact ⟨livePages_perm front, disjoint, apart⟩

theorem Sound.deallocateBlock (topBound : top ≤ maxOrder) (sound : Sound top state)
    (member : block ∈ state.live) :
    ∃ result, state.zone.deallocateBlock (addressOf state.zone block) block.order = some result ∧
      Sound top ⟨result, state.live.erase block⟩ := by
  obtain ⟨order, number, rfl, orderBound, numberBound⟩ := sound.shape block member
  obtain ⟨pagesEq, disjoint, apart⟩ := sound.focus member
  have inUse : blockPages order number ⊆ livePages state.live := by
    rw [pagesEq, Block.pages_ofNumber]
    exact subset_union_left
  obtain ⟨result, success, accounts, _⟩ :=
    sound.accounts.deallocateBlock topBound orderBound numberBound inUse
  have remaining : livePages state.live \ blockPages order number =
      livePages (state.live.erase (Block.ofNumber order number)) := by
    rw [pagesEq, Block.pages_ofNumber, union_sdiff_left, sdiff_eq_self_of_disjoint]
    rw [Block.pages_ofNumber] at disjoint
    exact disjoint.symm
  rw [remaining] at accounts
  refine ⟨result, ?_, accounts, ?_, apart⟩
  · rw [addressOf_ofNumber]
    exact success
  · intro other otherMember
    exact sound.shape other (List.mem_of_mem_erase otherMember)

theorem Sound.step (topBound : top ≤ maxOrder) (sound : Sound top state)
    (step : Step state next) : Sound top next := by
  cases step with
  | @allocate zone result live order address success =>
    rcases sound.accounts.allocateBlock topBound order with
      ⟨failed, _⟩ | ⟨_, number, allocated, orderBound, numberBound, disjoint, accounts, _⟩
    · cases success.symm.trans failed
    cases success.symm.trans allocated
    rw [blockAt_blockAddress]
    refine ⟨?_, ?_, pagesApart_cons.mpr ⟨?_, sound.apart⟩⟩
    · rw [livePages_cons, Block.pages_ofNumber]
      exact accounts
    · exact List.forall_mem_cons.mpr ⟨⟨order, number, rfl, orderBound, numberBound⟩, sound.shape⟩
    · rw [Block.pages_ofNumber]
      exact disjoint
  | @refuse zone result live order failure =>
    rcases sound.accounts.allocateBlock topBound order with
      ⟨failed, _⟩ | ⟨_, _, allocated, _⟩
    · cases failure.symm.trans failed
      exact sound
    · cases failure.symm.trans allocated
  | @free zone result live block member success =>
    obtain ⟨_, freed, soundResult⟩ := sound.deallocateBlock topBound member
    cases success.symm.trans freed
    exact soundResult
  | @split zone live block member =>
    obtain ⟨order, number, rfl, orderBound, numberBound⟩ := sound.shape block member
    obtain ⟨pagesEq, disjoint, apart⟩ := sound.focus member
    rw [Block.pages_ofNumber, ← livePages_split] at pagesEq disjoint
    refine ⟨?_, ?_, (pagesApart_split order number).append apart disjoint⟩
    · rw [livePages_append, ← pagesEq]
      exact sound.accounts
    intro other otherMember
    rcases List.mem_append.mp otherMember with single | older
    · have inside : ∃ page ∈ blockPages order number, other = Block.ofNumber 0 page := by
        rw [Block.split_ofNumber] at single
        obtain ⟨offset, below, rfl⟩ := List.mem_map.mp single
        refine ⟨_, ?_, rfl⟩
        rw [List.mem_range] at below
        rw [blockPages, mem_Ico, Nat.succ_mul]
        omega
      obtain ⟨page, inBlock, rfl⟩ := inside
      exact ⟨0, page, rfl, Nat.zero_le _, page_lt orderBound numberBound inBlock⟩
    · exact sound.shape other (List.mem_of_mem_erase older)
  | @scribble zone live block page entry member inBlock =>
    have used : page ∈ livePages live := mem_livePages.mpr ⟨block, member, inBlock⟩
    exact ⟨sound.accounts.scribble used entry, sound.shape, sound.apart⟩

theorem Reachable.sound (topBound : top ≤ maxOrder)
    (reachable : Reachable (2 ^ top) state) : Sound top state := by
  obtain ⟨entries, baseAddress, zone, created, run⟩ := reachable
  obtain ⟨_, success, accounts, _⟩ := create_accounts topBound entries baseAddress
  cases created.symm.trans success
  induction run with
  | refl => exact ⟨accounts, by simp, .nil⟩
  | tail _ step ih => exact ih.step topBound step

/-- The free blocks, given the first chunks of those of each order. -/
def freeBlocks (free : Nat → List Nat) : List Block :=
  (List.range (maxOrder + 1)).flatMap fun order =>
    (free order).map fun index => ⟨index, order⟩

/-- The invariant of a zone of `pageCount` pages, in terms of its chunks.
`free order` lists the first chunks of the free blocks of an order. -/
structure WellFormed (pageCount : Nat) (state : Tenancy) (free : Nat → List Nat) : Prop where
  aligned : ∀ block ∈ freeBlocks free ++ state.live, block.size ∣ block.index
  inside : ∀ block ∈ freeBlocks free ++ state.live, block.index + block.size ≤ 2 * pageCount
  apart : (freeBlocks free ++ state.live).Pairwise Block.Apart
  covered : ∀ chunk, chunk < 2 * pageCount →
    ∃ block ∈ freeBlocks free ++ state.live, block.Covers chunk
  linked : ∀ order, order ≤ maxOrder → IntrusiveList.IsList entryOf (-1) state.zone.entries
      (state.zone.buckets order).freelist
      ((free order).map fun index : Nat => (index : Int))
  buddyBit : ∀ order, order ≤ maxOrder → ∀ pair first second : Nat,
    first = 2 * pair * (2 * 2 ^ order) → second = first + 2 * 2 ^ order →
    second ≤ 2 * pageCount →
    ∃ bit, (state.zone.buckets order).getBuddyBit first = some bit ∧ (bit = true ↔
        (first ∈ free order ∧ second ∉ free order) ∨
        (second ∈ free order ∧ first ∉ free order))
  usedChunks : state.zone.usedChunks = (state.live.map Block.size).sum

/-- No call that a run can make next fails a `VERIFY`. -/
structure NeverFails (state : Tenancy) : Prop where
  allocateBlock : ∀ order, (state.zone.allocateBlock order).isSome
  deallocateBlock : ∀ block ∈ state.live, (state.zone.deallocateBlock (addressOf state.zone block)
      block.order).isSome

/-- The first chunks of the free blocks. -/
def firstChunks (free : FreeLists) (order : Nat) : List Nat :=
  (free order).map fun number => number * (2 * 2 ^ order)

theorem freeBlocks_firstChunks (free : FreeLists) :
    freeBlocks (firstChunks free) = (List.range (maxOrder + 1)).flatMap fun order =>
        (free order).map (Block.ofNumber order) := by
  simp only [freeBlocks, firstChunks, List.map_map]
  rfl

theorem mem_freeBlocks (member : block ∈ freeBlocks (firstChunks free)) :
    ∃ order number, block = Block.ofNumber order number ∧ number ∈ free order := by
  rw [freeBlocks_firstChunks] at member
  obtain ⟨order, _, inOrder⟩ := List.mem_flatMap.mp member
  obtain ⟨number, isFree, rfl⟩ := List.mem_map.mp inOrder
  exact ⟨order, number, rfl, isFree⟩

theorem mem_firstChunks :
    number * (2 * 2 ^ order) ∈ firstChunks free order ↔ number ∈ free order := by
  constructor
  · intro member
    obtain ⟨found, isFree, same⟩ := List.mem_map.mp member
    rwa [← Nat.eq_of_mul_eq_mul_right (by positivity) same]
  · exact fun isFree => List.mem_map_of_mem isFree

theorem freeBlocks_apart (invariant : Invariant top free) :
    (freeBlocks (firstChunks free)).Pairwise Block.Apart := by
  rw [freeBlocks_firstChunks, List.pairwise_flatMap]
  constructor
  · intro order _
    rw [List.pairwise_map]
    refine (invariant.nodup order).imp ?_
    intro first second differ
    refine Block.apart_ofNumber (disjoint_left.mpr ?_)
    intro page inFirst inSecond
    rw [mem_blockPages] at inFirst inSecond
    exact differ (inFirst.symm.trans inSecond)
  · refine List.nodup_range.imp ?_
    intro order other differ first firstMember second secondMember
    obtain ⟨number, isFree, rfl⟩ := List.mem_map.mp firstMember
    obtain ⟨otherNumber, otherFree, rfl⟩ := List.mem_map.mp secondMember
    refine Block.apart_ofNumber (disjoint_left.mpr ?_)
    intro page inFirst inSecond
    rw [mem_blockPages] at inFirst inSecond
    exact differ (invariant.unique page (inFirst ▸ isFree) (inSecond ▸ otherFree))

theorem pairBit_iff_exactly_one (invariant : Invariant top free) (order pair : Nat) :
    pairBit (free order) pair = true ↔ (2 * pair ∈ free order ∧ 2 * pair + 1 ∉ free order) ∨
      (2 * pair + 1 ∈ free order ∧ 2 * pair ∉ free order) := by
  have buddyEq : buddy (2 * pair) = 2 * pair + 1 := by
    unfold buddy
    rw [if_pos (by omega)]
  have half : 2 * pair / 2 = pair := by omega
  have notBoth : 2 * pair ∈ free order → 2 * pair + 1 ∉ free order := by
    intro member
    rw [← buddyEq]
    exact invariant.buddy_notMem member
  have either : pairBit (free order) (2 * pair / 2) = true ↔
      2 * pair ∈ free order ∨ buddy (2 * pair) ∈ free order :=
    pairBit_half_eq_true_iff
  rw [half, buddyEq] at either
  tauto

theorem getBuddyBit_first {zone : PhysicalZone} (topBound : top ≤ maxOrder)
    (invariant : Invariant top free) (models : zone.Represents top free)
    (fits : (2 * pair + 1) * (2 * 2 ^ order) ≤ 2 * 2 ^ top) :
    ∃ bit, (zone.buckets order).getBuddyBit ((2 * pair * (2 * 2 ^ order) : Nat) : Int) = some bit ∧
      (bit = true ↔ (2 * pair ∈ free order ∧ 2 * pair + 1 ∉ free order) ∨
        (2 * pair + 1 ∈ free order ∧ 2 * pair ∉ free order)) := by
  have unitsFit : (2 * pair + 1) * 2 ^ order ≤ 2 ^ top := by
    have double : (2 * pair + 1) * (2 * 2 ^ order) = 2 * ((2 * pair + 1) * 2 ^ order) := by ring
    omega
  have orderBound : order ≤ top := by
    refine (Nat.pow_le_pow_iff_right (a := 2) (by omega)).mp ?_
    exact Nat.le_trans (Nat.le_mul_of_pos_left _ (by omega)) unitsFit
  have numberBound : 2 * pair < 2 ^ (top - order) := by
    have product : 2 ^ (top - order) * 2 ^ order = 2 ^ top := by
      rw [← Nat.pow_add, Nat.sub_add_cancel orderBound]
    rw [← product] at unitsFit
    exact Nat.le_of_mul_le_mul_right unitsFit (Nat.two_pow_pos order)
  refine ⟨_, (models.tracks order orderBound).getBuddyBit topBound orderBound numberBound, ?_⟩
  rw [Nat.mul_div_cancel_left _ (by omega : 0 < 2)]
  exact pairBit_iff_exactly_one invariant order pair

theorem Sound.wellFormed (topBound : top ≤ maxOrder) (sound : Sound top state) :
    ∃ free, WellFormed (2 ^ top) state free := by
  obtain ⟨free, invariant, models, freeUnit⟩ := sound.accounts.buddies
  have shape : ∀ block ∈ freeBlocks (firstChunks free) ++ state.live,
      ∃ order number, block = Block.ofNumber order number ∧
        order ≤ top ∧ number < 2 ^ (top - order) := by
    intro block member
    rcases List.mem_append.mp member with isFree | live
    · obtain ⟨order, number, rfl, inList⟩ := mem_freeBlocks isFree
      exact ⟨order, number, rfl, invariant.inside inList⟩
    · exact sound.shape block live
  refine ⟨firstChunks free, ?_, ?_, ?_, ?_, ?_, ?_, ?_⟩
  · intro block member
    obtain ⟨order, number, rfl, _⟩ := shape block member
    exact Nat.dvd_mul_left _ number
  · intro block member
    obtain ⟨order, number, rfl, orderBound, numberBound⟩ := shape block member
    exact block_fits orderBound numberBound
  · refine List.pairwise_append.mpr ⟨freeBlocks_apart invariant, ?_, ?_⟩
    · refine sound.apart.imp_of_mem ?_
      intro first second firstLive secondLive disjoint
      obtain ⟨_, _, rfl, _⟩ := sound.shape first firstLive
      obtain ⟨_, _, rfl, _⟩ := sound.shape second secondLive
      rw [Block.pages_ofNumber, Block.pages_ofNumber] at disjoint
      exact Block.apart_ofNumber disjoint
    · intro first isFree second live
      obtain ⟨order, number, rfl, inList⟩ := mem_freeBlocks isFree
      obtain ⟨_, _, rfl, _⟩ := sound.shape second live
      refine Block.apart_ofNumber (disjoint_left.mpr ?_)
      intro page inFree inLive
      have unitFree : FreeUnit free page := ⟨order, mem_blockPages.mp inFree ▸ inList⟩
      refine ((freeUnit page).mp unitFree).2 (mem_livePages.mpr ⟨_, live, ?_⟩)
      rwa [Block.pages_ofNumber]
  · intro chunk below
    by_cases used : chunk / 2 ∈ livePages state.live
    · obtain ⟨block, live, inBlock⟩ := mem_livePages.mp used
      refine ⟨block, List.mem_append_right _ live, ?_⟩
      obtain ⟨_, _, rfl, _⟩ := sound.shape block live
      rw [Block.pages_ofNumber] at inBlock
      exact Block.covers_ofNumber.mpr inBlock
    · obtain ⟨order, inList⟩ := (freeUnit (chunk / 2)).mpr ⟨by omega, used⟩
      have orderBound := (invariant.inside inList).1
      refine ⟨Block.ofNumber order (chunk / 2 / 2 ^ order), List.mem_append_left _ ?_,
        Block.covers_ofNumber.mpr (mem_blockPages.mpr rfl)⟩
      rw [freeBlocks_firstChunks]
      exact List.mem_flatMap.mpr ⟨order, List.mem_range.mpr (by omega), List.mem_map_of_mem inList⟩
  · intro order bound
    have isList := models.freelist order bound
    simp only [firstChunks, List.map_map]
    exact isList
  · rintro order _ pair first second rfl rfl fits
    have secondEq : 2 * pair * (2 * 2 ^ order) + 2 * 2 ^ order =
        (2 * pair + 1) * (2 * 2 ^ order) := by ring
    rw [secondEq] at fits ⊢
    rw [mem_firstChunks, mem_firstChunks]
    exact getBuddyBit_first topBound invariant models fits
  · rw [sound.accounts.usedChunks, sound.apart.card]

theorem Sound.neverFails (topBound : top ≤ maxOrder)
    (sound : Sound top state) : NeverFails state := by
  constructor
  · intro order
    rcases sound.accounts.allocateBlock topBound order with
      ⟨failed, _⟩ | ⟨_, _, allocated, _⟩
    · rw [failed]
      rfl
    · rw [allocated]
      rfl
  · intro block member
    obtain ⟨_, success, _⟩ := sound.deallocateBlock topBound member
    rw [success]
    rfl

theorem top_le_maxOrder (limit : 2 ^ top ≤ 4096) : top ≤ maxOrder :=
  (Nat.pow_le_pow_iff_right (by omega : 1 < 2)).mp (limit : 2 ^ top ≤ 2 ^ 12)

/-- In every state of every run the free and the live blocks tile the zone,
the freelists are doubly linked lists of the free blocks, the buddy bits and
the chunk counter agree with them, and no `VERIFY` fails. -/
theorem reachable_wellFormed (powerOfTwo : ∃ top, pageCount = 2 ^ top) (limit : pageCount ≤ 4096)
    (reachable : Reachable pageCount state) :
    (∀ entries baseAddress, (PhysicalZone.create entries baseAddress pageCount).isSome) ∧
    (∃ free, WellFormed pageCount state free) ∧ NeverFails state := by
  obtain ⟨top, rfl⟩ := powerOfTwo
  have topBound := top_le_maxOrder limit
  have sound := reachable.sound topBound
  refine ⟨?_, sound.wellFormed topBound, sound.neverFails topBound⟩
  intro entries baseAddress
  obtain ⟨_, created, _⟩ := PhysicalZone.create_accounts topBound entries baseAddress
  rw [created]
  rfl

theorem reachable_lastPage : ∃ state, Reachable 4 state ∧ state.live = [⟨6, 0⟩] := by
  obtain ⟨zone, created⟩ : ∃ zone, create (fun _ => ⟨0, 0⟩) 0 4 = some zone :=
    Option.isSome_iff_exists.mp (by decide +kernel)
  have address : ((create (fun _ => ⟨0, 0⟩) 0 4).bind fun zone =>
      (zone.allocateBlock 0).map fun outcome =>
        (outcome.2, zone.baseAddress)) = some (some 12288, 0) := by
    decide +kernel
  rw [created] at address
  obtain ⟨⟨result, _⟩, success, outcome⟩ := Option.map_eq_some_iff.mp address
  obtain ⟨rfl, base⟩ := Prod.mk.inj outcome
  refine ⟨_, ⟨_, 0, zone, created, .single (.allocate success)⟩, ?_⟩
  simp [blockAt, base, zoneChunkSize, pageSize]

theorem reachable_wellFormed_lastPage :
    ∃ state, state.live = [⟨6, 0⟩] ∧ (∃ free, WellFormed 4 state free) ∧ NeverFails state := by
  obtain ⟨state, reachable, live⟩ := reachable_lastPage
  obtain ⟨_, wellFormed⟩ := reachable_wellFormed ⟨2, rfl⟩ (by decide) reachable
  exact ⟨state, live, wellFormed⟩

/-- A page that lies in no live block. -/
def PageFree (state : Tenancy) (page : Nat) : Prop :=
  ∀ block ∈ state.live, ¬block.Covers (2 * page) ∧ ¬block.Covers (2 * page + 1)

theorem Sound.pageFree_iff (sound : Sound top state) :
    state.PageFree page ↔ page ∉ livePages state.live := by
  have even : 2 * page / 2 = page := by omega
  have odd : (2 * page + 1) / 2 = page := by omega
  rw [mem_livePages]
  constructor
  · rintro isFree ⟨block, live, inBlock⟩
    obtain ⟨_, _, rfl, _⟩ := sound.shape block live
    refine (isFree _ live).1 (Block.covers_ofNumber.mpr ?_)
    rwa [even, ← Block.pages_ofNumber]
  · intro unused block live
    obtain ⟨order, number, rfl, _⟩ := sound.shape block live
    have outside : page ∉ blockPages order number := by
      rw [← Block.pages_ofNumber]
      exact fun inBlock => unused ⟨_, live, inBlock⟩
    rw [Block.covers_ofNumber, Block.covers_ofNumber, even, odd]
    exact ⟨outside, outside⟩

theorem Sound.freeRun_iff (sound : Sound top state) : FreeRun top order (livePages state.live) ↔
      ∃ number, (number + 1) * 2 ^ order ≤ 2 ^ top ∧ ∀ page, number * 2 ^ order ≤ page →
          page < (number + 1) * 2 ^ order → state.PageFree page := by
  refine exists_congr fun number => and_congr_right fun _ => ?_
  rw [disjoint_left]
  refine forall_congr' fun page => ?_
  rw [sound.pageFree_iff, blockPages, mem_Ico, and_imp]

/-- `allocate_block` fails exactly when no aligned run of pages is free, and
a zone without live blocks can be handed out whole. -/
theorem allocateBlock_fails_iff (powerOfTwo : ∃ top, pageCount = 2 ^ top) (limit : pageCount ≤ 4096)
    (reachable : Reachable pageCount state) :
    (∀ order, order ≤ maxOrder → ((∃ result, state.zone.allocateBlock order = some (result, none)) ↔
        ¬∃ number, (number + 1) * 2 ^ order ≤ pageCount ∧ ∀ page, number * 2 ^ order ≤ page →
            page < (number + 1) * 2 ^ order → state.PageFree page)) ∧
    (state.live = [] → ∀ top, pageCount = 2 ^ top → ∃ result, state.zone.allocateBlock top =
        some (result, some state.zone.baseAddress)) := by
  obtain ⟨top, rfl⟩ := powerOfTwo
  have topBound := top_le_maxOrder limit
  have sound := reachable.sound topBound
  constructor
  · intro order _
    rw [← sound.freeRun_iff]
    rcases sound.accounts.allocateBlock topBound order with
      ⟨failed, noRun⟩ | ⟨_, number, allocated, orderBound, numberBound, disjoint, _⟩
    · exact ⟨fun _ => noRun, fun _ => ⟨_, failed⟩⟩
    constructor
    · rintro ⟨_, failed⟩
      cases failed.symm.trans allocated
    intro noRun
    refine absurd ⟨number, ?_, disjoint⟩ noRun
    have fits := PhysicalZone.block_fits orderBound numberBound
    have double : number * (2 * 2 ^ order) + 2 * 2 ^ order =
        2 * ((number + 1) * 2 ^ order) := by ring
    omega
  · intro empty other same
    cases Nat.pow_right_injective (Nat.le_refl 2) same
    rcases sound.accounts.allocateBlock topBound top with
      ⟨_, noRun⟩ | ⟨result, number, allocated, _, numberBound, _⟩
    · refine absurd ⟨0, by simp, ?_⟩ noRun
      simp [empty]
    have first : number = 0 := by
      rw [Nat.sub_self] at numberBound
      omega
    rw [allocated, first, PhysicalZone.blockAddress]
    simp

theorem allocateBlock_fails_lastPage : (∃ state : Tenancy, state.live = [⟨6, 0⟩] ∧
      ∃ result, state.zone.allocateBlock 2 = some (result, none)) ∧
    ∃ state, Reachable 4 state ∧ state.live = [] ∧ ∃ result, state.zone.allocateBlock 2 =
        some (result, some state.zone.baseAddress) := by
  constructor
  · obtain ⟨state, reachable, live⟩ := reachable_lastPage
    refine ⟨state, live, ((allocateBlock_fails_iff ⟨2, rfl⟩ (by decide)
      reachable).1 2 (by decide)).mpr ?_⟩
    rintro ⟨number, fits, allFree⟩
    have lastFree := allFree 3 (by omega) (by omega)
    rw [PageFree, live] at lastFree
    exact (lastFree ⟨6, 0⟩ (by simp)).1 ⟨by decide, by decide⟩
  · obtain ⟨zone, created⟩ : ∃ zone, PhysicalZone.create (fun _ => ⟨0, 0⟩) 0 4 = some zone :=
      Option.isSome_iff_exists.mp (by decide +kernel)
    have reachable : Reachable 4 ⟨zone, []⟩ := ⟨_, 0, zone, created, .refl⟩
    exact ⟨_, reachable, rfl, (allocateBlock_fails_iff ⟨2, rfl⟩ (by decide) reachable).2 rfl 2 rfl⟩

end Tenancy

end MixUpOS.Kernel.Memory
