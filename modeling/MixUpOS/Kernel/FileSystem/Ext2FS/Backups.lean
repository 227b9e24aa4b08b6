import MixUpOS.AK.Builtins

/-!
# Backups of the super block

The super block and the descriptors of the groups are also written to the first
blocks of some groups.  The code counts groups from one, and its loops end before
the last group; the format counts from zero.
-/

namespace MixUpOS

/-- `is_power_of`, for the bases that no `constexpr` branch takes. -/
def AK.isPowerOf (base : Nat) (large : 2 < base) (x : Nat) : Bool :=
  if x = 0 then false
  else if x = 1 then true
  else if x % base ≠ 0 then false
  else isPowerOf base large (x / base)
termination_by x
decreasing_by exact Nat.div_lt_self (by omega) (by omega)

theorem AK.isPowerOf_iff (large : 2 < base) :
    isPowerOf base large x = true ↔ ∃ exponent, x = base ^ exponent := by
  induction x using Nat.strong_induction_on with
  | _ x ih =>
    rw [isPowerOf]
    by_cases isZero : x = 0
    · have pos : ∀ exponent, 0 < base ^ exponent := fun _ => Nat.pow_pos (by omega)
      simp [isZero, fun exponent => (pos exponent).ne]
    by_cases one : x = 1
    · simp only [one, if_true, Nat.one_ne_zero, if_false, true_iff]
      exact ⟨0, rfl⟩
    have product := Nat.div_add_mod x base
    split_ifs with remains
    · simp only [false_iff]
      rintro ⟨_ | exponent, same⟩
      · exact one same
      · exact remains (by rw [same, Nat.pow_succ, Nat.mul_mod_left])
    · rw [ih _ (Nat.div_lt_self (by omega) (by omega))]
      constructor
      · rintro ⟨exponent, same⟩
        refine ⟨exponent + 1, ?_⟩
        rw [Nat.pow_succ, Nat.mul_comm, ← same]
        omega
      · rintro ⟨_ | exponent, same⟩
        · exact absurd same one
        · exact ⟨exponent, by rw [same, Nat.pow_succ, Nat.mul_div_cancel _ (by omega)]⟩

namespace Kernel

open AK

/-- What the super block tells of the layout. -/
structure Ext2Geometry where
  logicalBlockSize : Nat
  blocksPerGroup : Nat
  blockGroupCount : Nat
  isSparse : Bool
  someBlocks : 0 < blocksPerGroup

namespace Ext2Geometry

variable (geometry : Ext2Geometry)

def firstBlockIndex : Nat := if geometry.logicalBlockSize = 1024 then 1 else 0

def firstBlockOfGroup (group : Nat) : Nat :=
  (group - 1) * geometry.blocksPerGroup + geometry.firstBlockIndex

/-- The groups that both loops write a backup to. -/
def backupGroups : List Nat := (List.range' 1 (geometry.blockGroupCount - 1)).filter fun group =>
    !geometry.isSparse || group == 2 || isPowerOf 3 (by decide) (group - 1) ||
      isPowerOf 5 (by decide) (group - 1) || isPowerOf 7 (by decide) (group - 1)

/-- The blocks that `flush_super_block` writes as backups. -/
def flushSuperBlock : List Nat := geometry.backupGroups.map geometry.firstBlockOfGroup

/-- The blocks of the descriptors, which have 32 bytes each. -/
def blocksToWrite : Nat := ceilDiv (geometry.blockGroupCount * 32) geometry.logicalBlockSize

/-- The blocks that `flush_block_group_descriptor_table` writes as backups. -/
def flushBlockGroupDescriptorTable : List Nat := geometry.backupGroups.flatMap fun group =>
    List.range' (geometry.firstBlockOfGroup group + 1) geometry.blocksToWrite

/-- The groups, counted from zero, for which the format prescribes backups. -/
def Prescribed (group : Nat) : Prop := (0 < group ∧ group < geometry.blockGroupCount) ∧
    (geometry.isSparse = true → group = 1 ∨ ∃ base ∈ [3, 5, 7], ∃ exponent, group = base ^ exponent)

def start (group : Nat) : Nat := group * geometry.blocksPerGroup + geometry.firstBlockIndex

/-- The blocks written are those at the start of the prescribed groups, and
block 0 is none of them. -/
def BackupsExact : Prop := (∀ block, block ∈ geometry.flushSuperBlock ↔
    ∃ group, geometry.Prescribed group ∧ block = geometry.start group) ∧
  (∀ block, block ∈ geometry.flushBlockGroupDescriptorTable ↔
    ∃ group, geometry.Prescribed group ∧ geometry.start group < block ∧
      block ≤ geometry.start group + geometry.blocksToWrite) ∧
  0 ∉ geometry.flushSuperBlock ∧ 0 ∉ geometry.flushBlockGroupDescriptorTable

variable {geometry}

theorem mem_backupGroups {group : Nat} : group + 1 ∈ geometry.backupGroups ↔
    group + 1 < geometry.blockGroupCount ∧ (geometry.isSparse = true →
      group = 1 ∨ ∃ base ∈ [3, 5, 7], ∃ exponent, group = base ^ exponent) := by
  rw [backupGroups, List.mem_filter]
  simp only [Nat.add_sub_cancel, Bool.or_eq_true, isPowerOf_iff, Bool.not_eq_true', beq_iff_eq,
    List.mem_cons, List.not_mem_nil, or_false, exists_eq_or_imp, exists_eq_left]
  cases geometry.isSparse with
  | false => simp; omega
  | true => simp [or_assoc]; omega

/-- The groups are the prescribed ones, unless the last group is one. -/
theorem mem_backupGroups_iff (last : ¬ geometry.Prescribed (geometry.blockGroupCount - 1))
    {group : Nat} : group ∈ geometry.backupGroups ↔
      0 < group ∧ geometry.Prescribed (group - 1) := by
  cases group with
  | zero => simp [backupGroups]
  | succ group =>
    rw [mem_backupGroups]
    constructor
    · rintro ⟨below, prescribed⟩
      refine ⟨Nat.succ_pos _, ⟨Nat.pos_of_ne_zero ?_, by omega⟩, prescribed⟩
      -- The first group has a backup only where every group has one.
      rintro rfl
      refine last ⟨by omega, fun sparse => ?_⟩
      obtain isOne | ⟨base, isBase, exponent, same⟩ := prescribed sparse
      · cases isOne
      · have pos : 0 < base ^ exponent := Nat.pow_pos (by simp at isBase; omega)
        omega
    · rintro ⟨_, prescribed⟩
      have notLast : group ≠ geometry.blockGroupCount - 1 := fun same => last (same ▸ prescribed)
      obtain ⟨⟨_, below⟩, isPrescribed⟩ := prescribed
      exact ⟨by omega, isPrescribed⟩

/-- The backups are exact unless the format prescribes one for the last
group. -/
theorem backupsExact_iff (geometry : Ext2Geometry) :
    geometry.BackupsExact ↔ ¬ geometry.Prescribed (geometry.blockGroupCount - 1) := by
  have someBlocks := geometry.someBlocks
  constructor
  · rintro ⟨exactly, _⟩ last
    have written := (exactly _).mpr ⟨_, last, rfl⟩
    obtain ⟨group, member, same⟩ := List.mem_map.mp written
    have number := Nat.eq_of_mul_eq_mul_right someBlocks (Nat.add_right_cancel same)
    rw [backupGroups, List.mem_filter, List.mem_range'_1] at member
    omega
  · intro last
    have groups := @mem_backupGroups_iff geometry last
    have superBlocks : ∀ block, block ∈ geometry.flushSuperBlock ↔
        ∃ group, geometry.Prescribed group ∧ block = geometry.start group := by
      intro block
      rw [flushSuperBlock, List.mem_map]
      constructor
      · rintro ⟨group, member, rfl⟩
        exact ⟨_, (groups.mp member).2, rfl⟩
      · rintro ⟨group, prescribed, rfl⟩
        exact ⟨group + 1, groups.mpr ⟨Nat.succ_pos _, prescribed⟩, rfl⟩
    refine ⟨superBlocks, ?_, ?_, by simp [flushBlockGroupDescriptorTable]⟩
    · intro block
      simp only [flushBlockGroupDescriptorTable, List.mem_flatMap, List.mem_range'_1, groups]
      constructor
      · rintro ⟨group, ⟨_, prescribed⟩, above, below⟩
        have below : block < geometry.start (group - 1) + 1 + geometry.blocksToWrite := below
        exact ⟨_, prescribed, above, by omega⟩
      · rintro ⟨group, prescribed, above, below⟩
        refine ⟨group + 1, ⟨Nat.succ_pos _, prescribed⟩, above, ?_⟩
        change block < geometry.start group + 1 + geometry.blocksToWrite
        omega
    · rw [superBlocks]
      rintro ⟨group, ⟨⟨positive, _⟩, _⟩, same⟩
      have product := Nat.mul_pos positive someBlocks
      unfold start at same
      omega

/-- With two groups, block 0 is overwritten. -/
theorem not_backupsExact_two : ¬ BackupsExact ⟨4096, 32768, 2, false, by decide⟩ := by
  rintro ⟨_, _, notZero, _⟩
  exact notZero (by simp [flushSuperBlock, backupGroups, firstBlockOfGroup, firstBlockIndex])

end Ext2Geometry

end Kernel

end MixUpOS
