import MixUpOS.AK.Builtins

/-!
# Directories in blocks

A directory is a sequence of records.  Each tells its length, so the records of
a block lead from its start to its end.
-/

namespace MixUpOS.Kernel

open AK List

/-- `Ext2FSDirectoryEntry` without the length of its record. -/
structure Ext2FSDirectoryEntry where
  name : List UInt8
  inodeIndex : Nat
  fileType : UInt8
deriving DecidableEq

/-- `ext2_dir_entry_2` up to `rec_len`, and the bytes behind that. -/
structure Ext2DirEntry where
  inode : Nat
  recLen : Nat
  behind : List UInt8

/-- The revision and the features of `ext2_super_block`. -/
structure Ext2SuperBlock where
  revLevel : BitVec 32
  featureCompat : BitVec 32
  featureIncompat : BitVec 32

namespace Ext2FS

/-- `EXT2_FEATURE_COMPAT_EXT_ATTR`. -/
def extendedAttributes : BitVec 32 := 8

/-- `EXT2_FEATURE_INCOMPAT_FILETYPE`, which tells that records have a file
type.  The code does not read it. -/
def featureIncompatFiletype : BitVec 32 := 2

def getFeaturesOptional (superBlock : Ext2SuperBlock) : BitVec 32 :=
  if superBlock.revLevel > 0 then superBlock.featureCompat else 0

/-- What both functions below take for the feature of file types. -/
def hasFileTypeAttribute (superBlock : Ext2SuperBlock) : Bool :=
  getFeaturesOptional superBlock &&& extendedAttributes = extendedAttributes

/-- `EXT2_DIR_REC_LEN`. -/
def dirRecLen (nameLength : Nat) : Nat := (nameLength + 8 + 3) / 4 * 4

section

variable (hasFileTypeAttribute : Bool) (blockSize : Nat)

/-- The entries with the lengths of their records. -/
def recordLengths : Nat → List Ext2FSDirectoryEntry → List (Ext2FSDirectoryEntry × Nat)
  | _, [] => []
  | spaceInBlock, [entry] =>
    let recordLength := dirRecLen entry.name.length
    [(entry, recordLength + (spaceInBlock - recordLength))]
  | spaceInBlock, entry :: next :: rest =>
    let recordLength := dirRecLen entry.name.length
    let spaceInBlock := spaceInBlock - recordLength
    if spaceInBlock < dirRecLen next.name.length then
      (entry, recordLength + spaceInBlock) :: recordLengths blockSize (next :: rest)
    else (entry, recordLength) :: recordLengths spaceInBlock (next :: rest)

/-- `EXT2_FT_UNKNOWN` without the attribute. -/
def knownType (fileType : UInt8) : UInt8 := if hasFileTypeAttribute then fileType else 0

def writeRecord (record : Ext2FSDirectoryEntry × Nat) : List UInt8 :=
  let (entry, recordLength) := record
  .ofNat entry.inodeIndex :: .ofNat (entry.inodeIndex / 2 ^ 8) ::
    .ofNat (entry.inodeIndex / 2 ^ 16) :: .ofNat (entry.inodeIndex / 2 ^ 24) ::
    .ofNat recordLength :: .ofNat (recordLength / 2 ^ 8) :: .ofNat entry.name.length ::
    knownType hasFileTypeAttribute entry.fileType ::
    (entry.name ++ List.replicate (recordLength - entry.name.length - 8) 0)

/-- The bytes that `write_directory` writes. -/
def writeDirectory (entries : List Ext2FSDirectoryEntry) : List UInt8 :=
  (recordLengths blockSize blockSize entries).flatMap (writeRecord hasFileTypeAttribute)

def readHeader : List UInt8 → Option Ext2DirEntry
  | i₀ :: i₁ :: i₂ :: i₃ :: r₀ :: r₁ :: behind =>
    some ⟨i₀.toNat + 2 ^ 8 * i₁.toNat + 2 ^ 16 * i₂.toNat + 2 ^ 24 * i₃.toNat,
      r₀.toNat + 2 ^ 8 * r₁.toNat, behind⟩
  | _ => none

/-- The name and the file type. -/
def readName : List UInt8 → Option (List UInt8 × UInt8)
  | [] => none
  | nameLen :: behind => do
    let fileType ← if hasFileTypeAttribute then behind.head? else some 0
    let name := behind.drop 1
    verify (nameLen.toNat ≤ name.length)
    return (name.take nameLen.toNat, fileType)

/-- What the callback gets: nothing of a record without an inode. -/
def readRecord (entry : Ext2DirEntry) : Option (List Ext2FSDirectoryEntry) :=
  if entry.inode = 0 then some []
  else do
    let (name, fileType) ← readName hasFileTypeAttribute entry.behind
    return [⟨name, entry.inode, fileType⟩]

/-- The records of a block, of which `left` bytes are left; `bytes` are those of
them that were read.  `none` is a read behind them, or a loop that does not end. -/
def traverseBlock : Nat → Nat → List UInt8 → Option (List Ext2FSDirectoryEntry)
  | 0, _, _ => none
  | fuel + 1, left, bytes =>
    if left = 0 then some []
    else do
      let entry ← readHeader bytes
      let here ← readRecord hasFileTypeAttribute entry
      let others ← traverseBlock fuel (left - entry.recLen) (bytes.drop entry.recLen)
      return here ++ others

def traverseBlocks (fuel : Nat) : Nat → List UInt8 → Option (List Ext2FSDirectoryEntry)
  | 0, _ => some []
  | count + 1, bytes => do
    let entries ← traverseBlock hasFileTypeAttribute fuel blockSize (bytes.take blockSize)
    let others ← traverseBlocks fuel count (bytes.drop blockSize)
    return entries ++ others

/-- `traverse_as_directory` with a callback that returns no error. -/
def traverseAsDirectory (fuel : Nat) (bytes : List UInt8) : Option (List Ext2FSDirectoryEntry) :=
  traverseBlocks hasFileTypeAttribute blockSize fuel (ceilDiv bytes.length blockSize) bytes

end

/-- Every record that is reached has a length and lies in what was read. -/
inductive Chained (typed : Bool) : Nat → List UInt8 → Prop where
  | done (bytes : List UInt8) : Chained typed 0 bytes
  | record {left : Nat} {bytes : List UInt8} {entry : Ext2DirEntry}
      (header : readHeader bytes = some entry)
      (name : entry.inode ≠ 0 → (readName typed entry.behind).isSome = true)
      (positive : 0 < entry.recLen)
      (onward : Chained typed (left - entry.recLen) (bytes.drop entry.recLen)) :
      Chained typed left bytes

section

variable {typed : Bool} {blockSize count : Nat} {bytes : List UInt8}
  {entries : List Ext2FSDirectoryEntry}

theorem chained_of_traverseBlock (traversed : traverseBlock typed fuel left bytes = some result) :
    Chained typed left bytes := by
  induction fuel generalizing left bytes result with
  | zero => cases traversed
  | succ fuel ih =>
    rw [traverseBlock] at traversed
    split_ifs at traversed with isDone
    · rw [isDone]
      exact .done bytes
    · obtain ⟨entry, header, traversed⟩ := Option.bind_eq_some_iff.mp traversed
      obtain ⟨here, isHere, traversed⟩ := Option.bind_eq_some_iff.mp traversed
      obtain ⟨others, onward, _⟩ := Option.bind_eq_some_iff.mp traversed
      have chained := ih onward
      by_cases pos : 0 < entry.recLen
      · refine .record header ?_ pos chained
        intro isUsed
        rw [readRecord, if_neg isUsed] at isHere
        obtain ⟨_, isName, _⟩ := Option.bind_eq_some_iff.mp isHere
        exact Option.isSome_iff_exists.mpr ⟨_, isName⟩
      · rw [Nat.eq_zero_of_not_pos pos] at chained
        exact chained

theorem Chained.traverseBlock (chained : Chained typed left bytes) :
    ∀ fuel, left < fuel → ∃ result, Ext2FS.traverseBlock typed fuel left bytes = some result := by
  induction chained with
  | done bytes =>
    rintro (_ | fuel) enough
    · cases enough
    · exact ⟨[], rfl⟩
  | @record left bytes entry header name pos onward ih =>
    rintro (_ | fuel) enough
    · cases enough
    · rw [Ext2FS.traverseBlock]
      split_ifs with isDone
      · exact ⟨[], rfl⟩
      · obtain ⟨others, traversed⟩ := ih fuel (by omega)
        obtain ⟨here, isHere⟩ : ∃ here, readRecord typed entry = some here := by
          rw [readRecord]
          split_ifs with isFree
          · exact ⟨[], rfl⟩
          · obtain ⟨_, isName⟩ := Option.isSome_iff_exists.mp (name isFree)
            rw [isName]
            exact ⟨_, rfl⟩
        simp only [header, isHere, traversed, some_bind]
        exact ⟨_, rfl⟩

theorem traverseBlocks_isSome_iff :
    (traverseBlocks typed blockSize fuel count bytes).isSome = true ↔
      ∀ index < count, (traverseBlock typed fuel blockSize
        ((bytes.drop (index * blockSize)).take blockSize)).isSome = true := by
  induction count generalizing bytes with
  | zero => simp [traverseBlocks]
  | succ count ih =>
    simp only [Nat.forall_lt_succ_left, Nat.succ_mul, Nat.add_comm _ blockSize, ← drop_drop,
      ← ih, traverseBlocks, Nat.zero_mul, drop_zero]
    cases traverseBlock typed fuel blockSize (bytes.take blockSize) with
    | none => simp
    | some entries =>
      cases traverseBlocks typed blockSize fuel count (bytes.drop blockSize) <;> simp

/-- The traversal ends and stays in the bytes that it has read, exactly if every
record that it reaches has a length and lies in them. -/
theorem traverseAsDirectory_returns_iff (typed : Bool) (blockSize : Nat) (bytes : List UInt8) :
    (∃ fuel, (traverseAsDirectory typed blockSize fuel bytes).isSome = true) ↔
      ∀ index < ceilDiv bytes.length blockSize,
        Chained typed blockSize ((bytes.drop (index * blockSize)).take blockSize) := by
  simp only [traverseAsDirectory, traverseBlocks_isSome_iff]
  constructor
  · rintro ⟨fuel, returns⟩ index below
    obtain ⟨result, traversed⟩ := Option.isSome_iff_exists.mp (returns index below)
    exact chained_of_traverseBlock traversed
  · intro chained
    exact ⟨blockSize + 1, fun index below => Option.isSome_iff_exists.mpr
      ((chained index below).traverseBlock _ (Nat.lt_succ_self _))⟩

/-- A record of length 0 is read for ever. -/
theorem not_returns_zero : ¬ ∃ fuel,
    (traverseAsDirectory true 1024 fuel (List.replicate 1024 0)).isSome = true := by
  rintro ⟨fuel, returns⟩
  rw [traverseAsDirectory, traverseBlocks_isSome_iff] at returns
  obtain ⟨_, traversed⟩ :=
    Option.isSome_iff_exists.mp (returns 0 (by rw [List.length_replicate]; decide))
  cases chained_of_traverseBlock traversed with
  | record header _ positive _ =>
    cases header
    cases positive

/-- An entry that can be written, in a record that holds it. -/
structure Fits (record : Ext2FSDirectoryEntry × Nat) : Prop where
  inode : 0 < record.1.inodeIndex ∧ record.1.inodeIndex < 2 ^ 32
  name : 0 < record.1.name.length ∧ record.1.name.length ≤ 255
  aligned : 4 ∣ record.2
  room : 8 + record.1.name.length ≤ record.2

/-- The records fill the rest of a block and then whole blocks. -/
inductive Tiles (blockSize : Nat) : Nat → List (Ext2FSDirectoryEntry × Nat) → Prop where
  | nil : Tiles blockSize 0 []
  | next {records : List (Ext2FSDirectoryEntry × Nat)} (tiles : Tiles blockSize blockSize records) :
      Tiles blockSize 0 records
  | cons {space : Nat} {record : Ext2FSDirectoryEntry × Nat}
      {records : List (Ext2FSDirectoryEntry × Nat)} (fits : Fits record) (inside : record.2 ≤ space)
      (tiles : Tiles blockSize (space - record.2) records) :
      Tiles blockSize space (record :: records)

/-- Entries with an inode number and a name of 1 to 255 bytes. -/
def Writable (entries : List Ext2FSDirectoryEntry) : Prop :=
  ∀ entry ∈ entries, (0 < entry.inodeIndex ∧ entry.inodeIndex < 2 ^ 32) ∧
    0 < entry.name.length ∧ entry.name.length ≤ 255

theorem fits_of_writable {length : Nat} (writable : Writable (entry :: entries))
    (aligned : 4 ∣ length) (room : dirRecLen entry.name.length ≤ length) :
    Fits (entry, length) := by
  obtain ⟨⟨inode, name⟩, _⟩ := forall_mem_cons.mp writable
  refine ⟨inode, name, aligned, ?_⟩
  simp only [dirRecLen] at room ⊢
  omega

theorem map_recordLengths : (recordLengths blockSize space entries).map Prod.fst = entries := by
  fun_induction recordLengths blockSize space entries <;> simp_all

theorem recordLengths_tiles {space : Nat} (aligned : 4 ∣ blockSize) (large : 266 ≤ blockSize)
    (spaceAligned : 4 ∣ space) (room : dirRecLen entry.name.length ≤ space)
    (writable : Writable (entry :: entries)) :
    Tiles blockSize space (recordLengths blockSize space (entry :: entries)) := by
  induction entries generalizing entry space with
  | nil =>
    rw [recordLengths, Nat.add_sub_of_le room]
    refine .cons (fits_of_writable writable spaceAligned room) (Nat.le_refl _) ?_
    rw [Nat.sub_self]
    exact .nil
  | cons next rest ih =>
    have others := (forall_mem_cons.mp writable).2
    obtain ⟨_, _, nextShort⟩ := others next mem_cons_self
    rw [recordLengths, Nat.add_sub_of_le room]
    split_ifs with full
    · -- The next entry does not fit: the record takes the rest of the block.
      refine .cons (fits_of_writable writable spaceAligned room) (Nat.le_refl _) ?_
      rw [Nat.sub_self]
      exact .next (ih aligned (by unfold dirRecLen; omega) others)
    · have recordAligned : 4 ∣ dirRecLen entry.name.length := Nat.dvd_mul_left ..
      exact .cons (fits_of_writable writable recordAligned (Nat.le_refl _)) room
        (ih (Nat.dvd_sub spaceAligned recordAligned) (Nat.le_of_not_lt full) others)

/-- What is read of an entry. -/
def readEntry (typed : Bool) (entry : Ext2FSDirectoryEntry) : Ext2FSDirectoryEntry :=
  { entry with fileType := knownType typed entry.fileType }

theorem writeRecord_length (fits : Fits record) : (writeRecord typed record).length = record.2 := by
  have room := fits.room
  simp only [writeRecord, length_cons, length_append, length_replicate]
  omega

theorem readHeader_writeRecord (fits : Fits record) (small : record.2 < 2 ^ 16)
    (rest : List UInt8) :
    readHeader (writeRecord typed record ++ rest) =
      some ⟨record.1.inodeIndex, record.2, .ofNat record.1.name.length ::
        knownType typed record.1.fileType :: (record.1.name ++
          (replicate (record.2 - record.1.name.length - 8) 0 ++ rest))⟩ := by
  have inode := fits.inode.2
  simp only [writeRecord, cons_append, readHeader, UInt8.toNat_ofNat', append_assoc,
    Option.some.injEq, Ext2DirEntry.mk.injEq, and_true]
  omega

theorem traverseBlock_writeRecord (fits : Fits record) (small : record.2 < 2 ^ 16)
    (inside : record.2 ≤ left)
    (traversed : traverseBlock typed fuel (left - record.2) rest = some entries) :
    traverseBlock typed (fuel + 1) left (writeRecord typed record ++ rest) =
      some (readEntry typed record.1 :: entries) := by
  have isLeft : left ≠ 0 := by
    have room := fits.room
    omega
  have isUsed : record.1.inodeIndex ≠ 0 := Nat.ne_of_gt fits.inode.1
  have short : record.1.name.length % 256 = record.1.name.length :=
    Nat.mod_eq_of_lt (Nat.lt_succ_of_le fits.name.2)
  rw [traverseBlock, if_neg isLeft, readHeader_writeRecord fits small]
  cases typed <;> simp [drop_left' (writeRecord_length fits), traversed, isUsed, readRecord,
    readName, short, readEntry, knownType]

theorem traverseBlock_zero (enough : 0 < fuel) : traverseBlock typed fuel 0 bytes = some [] := by
  obtain ⟨fuel, rfl⟩ := Nat.exists_eq_succ_of_ne_zero (Nat.ne_of_gt enough)
  rfl

/-- What is written is read, in the rest of a block and in the blocks behind it. -/
theorem Tiles.traverse (typed : Bool) (tiles : Tiles blockSize space records)
    (small : blockSize < 2 ^ 16) (inside : space ≤ blockSize) :
    ∃ count entries others,
      (records.flatMap (writeRecord typed)).length = space + count * blockSize ∧
      (∀ fuel, space < fuel → traverseBlock typed fuel space
        ((records.flatMap (writeRecord typed)).take space) = some entries) ∧
      traverseBlocks typed blockSize (blockSize + 1) count
        ((records.flatMap (writeRecord typed)).drop space) = some others ∧
      entries ++ others = (records.map Prod.fst).map (readEntry typed) := by
  induction tiles with
  | nil => exact ⟨0, [], [], by simp, fun _ => traverseBlock_zero, rfl, rfl⟩
  | next tiles ih =>
    obtain ⟨count, entries, others, length, first, behind, whole⟩ := ih (Nat.le_refl _)
    refine ⟨count + 1, [], entries ++ others, ?_, fun _ => traverseBlock_zero, ?_, whole⟩
    · rw [length, Nat.zero_add, Nat.succ_mul, Nat.add_comm]
    · simp [traverseBlocks, first _ (Nat.lt_succ_self _), behind]
  | @cons space record records fits recordInside tiles ih =>
    obtain ⟨count, entries, others, length, first, behind, whole⟩ := ih (by omega)
    have recordLength : (writeRecord typed record).length = record.2 := writeRecord_length fits
    simp only [flatMap_cons, length_append, take_append, drop_append,
      recordLength, length, take_of_length_le (recordLength.trans_le recordInside),
      drop_of_length_le (recordLength.trans_le recordInside), nil_append]
    refine ⟨count, readEntry typed record.1 :: entries, others, by omega, ?_,
      behind, congrArg (_ :: ·) whole⟩
    rintro (_ | fuel) enough
    · cases enough
    · have room := fits.room
      exact traverseBlock_writeRecord fits (by omega) recordInside (first fuel (by omega))

/-- The types survive if there are any in the records, or none to lose. -/
theorem map_readEntry_iff : entries.map (readEntry typed) = entries ↔
    typed = true ∨ ∀ entry ∈ entries, entry.fileType = 0 := by
  induction entries with
  | nil => simp
  | cons entry entries ih =>
    rw [map_cons, cons.injEq, ih, forall_mem_cons]
    obtain ⟨name, inodeIndex, fileType⟩ := entry
    cases typed <;> simp [readEntry, knownType, eq_comm]

end

/-- The records fill whole blocks, and what is read of them is what was written,
up to the types without `EXT_ATTR`. -/
theorem traverseAsDirectory_writeDirectory (superBlock : Ext2SuperBlock) {blockSize : Nat}
    (supported : blockSize ∈ [1024, 2048, 4096]) {entries : List Ext2FSDirectoryEntry}
    (writable : Writable entries) :
    let typed := hasFileTypeAttribute superBlock
    Tiles blockSize 0 (recordLengths blockSize blockSize entries) ∧
      blockSize ∣ (writeDirectory typed blockSize entries).length ∧
      ∃ fuel read, traverseAsDirectory typed blockSize fuel
          (writeDirectory typed blockSize entries) = some read ∧
        read.map (fun entry => (entry.name, entry.inodeIndex)) =
          entries.map (fun entry => (entry.name, entry.inodeIndex)) ∧
        (read = entries ↔ typed = true ∨ ∀ entry ∈ entries, entry.fileType = 0) := by
  intro typed
  simp only [List.mem_cons, List.not_mem_nil, or_false] at supported
  have tiles : Tiles blockSize 0 (recordLengths blockSize blockSize entries) := by
    cases entries with
    | nil => exact .nil
    | cons entry entries =>
      have short := (List.forall_mem_cons.mp writable).1.2.2
      exact .next (recordLengths_tiles (by omega) (by omega) (by omega)
        (by unfold dirRecLen; omega) writable)
  obtain ⟨count, first, others, length, done, behind, whole⟩ :=
    tiles.traverse typed (by omega) (Nat.zero_le _)
  rw [Nat.zero_add] at length
  refine ⟨tiles, ⟨count, length.trans (Nat.mul_comm ..)⟩, blockSize + 1,
    entries.map (readEntry typed), ?_, by simp [readEntry, Function.comp_def], map_readEntry_iff⟩
  have positive : 0 < blockSize := by omega
  have isEmpty : [] = first := Option.some.inj (done 1 Nat.one_pos)
  rw [← isEmpty, map_recordLengths] at whole
  rw [traverseAsDirectory, writeDirectory, length, ceilDiv, Nat.mul_mod_left,
    Nat.mul_div_cancel _ positive, ← whole]
  exact behind

/-- Long names that take two blocks. -/
theorem traverseAsDirectory_writeDirectory_long : ∃ fuel,
    traverseAsDirectory (hasFileTypeAttribute ⟨1, extendedAttributes, 0⟩) 1024 fuel
      (writeDirectory (hasFileTypeAttribute ⟨1, extendedAttributes, 0⟩) 1024
        (⟨[46], 2, 2⟩ :: List.replicate 4 ⟨List.replicate 255 97, 12, 1⟩)) =
      some (⟨[46], 2, 2⟩ :: List.replicate 4 ⟨List.replicate 255 97, 12, 1⟩) := by
  have writable : Writable
      (⟨[46], 2, 2⟩ :: List.replicate 4 ⟨List.replicate 255 97, 12, 1⟩) := by
    unfold Writable
    decide +kernel
  obtain ⟨_, _, fuel, read, isRead, _, same⟩ := traverseAsDirectory_writeDirectory
    ⟨1, extendedAttributes, 0⟩ (by decide : 1024 ∈ [1024, 2048, 4096]) writable
  rw [same.mpr (.inl (by decide))] at isRead
  exact ⟨fuel, isRead⟩

/-- On a file system whose records have types, the type is lost. -/
theorem not_reads_type :
    traverseAsDirectory (hasFileTypeAttribute ⟨1, 0, featureIncompatFiletype⟩) 1024 2
      (writeDirectory (hasFileTypeAttribute ⟨1, 0, featureIncompatFiletype⟩) 1024
        [⟨[46], 2, 2⟩]) = some [⟨[46], 2, 0⟩] := by
  decide +kernel

end Ext2FS

end MixUpOS.Kernel
