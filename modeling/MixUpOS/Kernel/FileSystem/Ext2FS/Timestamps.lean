import MixUpOS.AK.Error
import MixUpOS.AK.Time

/-!
# Timestamps of inodes

A time is stored as the low 32 bits of its seconds.  Inodes that are large
enough have a second word for each time, with two more bits of the seconds and
with the nanoseconds.
-/

namespace MixUpOS.Kernel.Ext2FS

open AK

/-- The times that can be set. -/
inductive TimeName where
  | atime
  | ctime
  | mtime
deriving DecidableEq

/-- The two words of a time. -/
structure TimeField where
  time : Nat
  extra : Nat
deriving DecidableEq

/-- What `ext2_inode_large` says about times. -/
structure InodeTimes where
  extraIsize : Nat
  times : TimeName → TimeField

/-- Where the second word of a time ends. -/
def TimeName.extraEnd : TimeName → Nat
  | atime => 144
  | ctime => 136
  | mtime => 140

def sizeOfInodeLarge : Nat := 160

def goodOldInodeSize : Nat := 128

/-- The size of inodes is at least the old one. -/
def usableInodeSize (inodeSize : Nat) (inode : InodeTimes) : Nat :=
  if inodeSize = goodOldInodeSize then goodOldInodeSize
  else if sizeOfInodeLarge < goodOldInodeSize + inode.extraIsize then sizeOfInodeLarge
  else goodOldInodeSize + inode.extraIsize

/-- `static_cast<i32>`. -/
def toInt32 (value : Int) : Int := (value + 2 ^ 31) % 2 ^ 32 - 2 ^ 31

def decodeSecondsWithExtra (seconds : Int) (extra : Nat) : Int :=
  if extra % 4 ≠ 0 then seconds + (extra % 4 : Nat) * 2 ^ 32 else seconds

def decodeNanosecondsFromExtra (extra : Nat) : Nat := extra >>> 2

def encodeTimeToExtra (seconds : Int) (nanoseconds : Nat) : Nat :=
  nanoseconds <<< 2 % 2 ^ 32 ||| ((seconds - toInt32 seconds) / 2 ^ 32 % 4).toNat

/-- `UnixDateTime::from_unix_timespec`, of seconds that are far from the ends of
an `i64`. -/
def fromUnixTimespec (seconds : Int) (nanoseconds : Nat) : Duration :=
  ⟨seconds + nanoseconds / 10 ^ 9, nanoseconds % 10 ^ 9⟩

def decodeTimeWithExtra (field : TimeField) : Duration :=
  fromUnixTimespec (decodeSecondsWithExtra (toInt32 field.time) field.extra)
    (decodeNanosecondsFromExtra field.extra)

def encodeTime (time : Duration) : TimeField :=
  ⟨(time.seconds % 2 ^ 32).toNat, encodeTimeToExtra time.seconds time.nanoseconds⟩

namespace InodeTimes

variable (inodeSize : Nat) (inode : InodeTimes)

/-- The inode has the second word of the time. -/
def hasExtra (name : TimeName) : Bool := name.extraEnd ≤ usableInodeSize inodeSize inode

/-- A time in `metadata()`. -/
def metadata (name : TimeName) : Duration :=
  if inode.hasExtra inodeSize name then decodeTimeWithExtra (inode.times name)
  else ⟨toInt32 (inode.times name).time, 0⟩

/-- The time is refused. -/
def refuses (given : TimeName → Option Duration) (name : TimeName) : Bool :=
  2 ^ 31 - 1 < ((given name).getD ⟨0, 0⟩).seconds && !inode.hasExtra inodeSize name

def updateTimestamps (isReadonly : Bool) (given : TimeName → Option Duration) :
    ErrorOr Unit × InodeTimes :=
  if isReadonly then (.error .EROFS, inode)
  else if inode.refuses inodeSize given .atime then (.error .EINVAL, inode)
  else if inode.refuses inodeSize given .ctime then (.error .EINVAL, inode)
  else if inode.refuses inodeSize given .mtime then (.error .EINVAL, inode)
  else (.ok (), { inode with
    times := fun name => ((given name).map encodeTime).getD (inode.times name) })

/-- The seconds that can be stored. -/
def Representable (name : TimeName) (seconds : Int) : Prop := -2 ^ 31 ≤ seconds ∧
    seconds < if inode.hasExtra inodeSize name then 2 ^ 34 - 2 ^ 31 else 2 ^ 31

/-- What is set is reported, and what cannot be stored is rejected. -/
structure RoundTrips (isReadonly : Bool) (given : TimeName → Option Duration) : Prop where
  reported : ∀ later, inode.updateTimestamps inodeSize isReadonly given = (.ok (), later) →
    ∀ name time, given name = some time → (later.metadata inodeSize name).seconds = time.seconds ∧
        (inode.hasExtra inodeSize name →
          (later.metadata inodeSize name).nanoseconds = time.nanoseconds)
  rejected : ∀ name time, given name = some time →
    ¬ inode.Representable inodeSize name time.seconds →
    ∃ error, (inode.updateTimestamps inodeSize isReadonly given).1 = .error error
  unchanged : ∀ error later,
    inode.updateTimestamps inodeSize isReadonly given = (.error error, later) → later = inode

end InodeTimes

theorem toInt32_time (time : Duration) : toInt32 (encodeTime time).time = toInt32 time.seconds := by
  simp only [toInt32, encodeTime]
  omega

theorem encodeTimeToExtra_eq (low : -2 ^ 31 ≤ seconds) (high : seconds < 2 ^ 34 - 2 ^ 31)
    (normal : nanoseconds < 10 ^ 9) :
    ∃ epoch < 4, encodeTimeToExtra seconds nanoseconds = 4 * nanoseconds + epoch ∧
      seconds = toInt32 seconds + epoch * 2 ^ 32 := by
  refine ⟨((seconds - toInt32 seconds) / 2 ^ 32 % 4).toNat, by omega, ?_, ?_⟩
  · rw [encodeTimeToExtra, Nat.mod_eq_of_lt (by omega),
      ← Nat.shiftLeft_add_eq_or_of_lt (by omega), Nat.shiftLeft_eq, Nat.mul_comm]
  · unfold toInt32
    omega

theorem decodeTimeWithExtra_encodeTime (low : -2 ^ 31 ≤ seconds) (high : seconds < 2 ^ 34 - 2 ^ 31)
    (normal : nanoseconds < 10 ^ 9) :
    decodeTimeWithExtra (encodeTime ⟨seconds, nanoseconds⟩) = ⟨seconds, nanoseconds⟩ := by
  obtain ⟨epoch, small, isExtra, isSeconds⟩ := encodeTimeToExtra_eq low high normal
  have isNanoseconds : decodeNanosecondsFromExtra (4 * nanoseconds + epoch) = nanoseconds := by
    rw [decodeNanosecondsFromExtra]
    omega
  have decoded : decodeSecondsWithExtra (toInt32 seconds) (4 * nanoseconds + epoch) = seconds := by
    rw [decodeSecondsWithExtra]
    split_ifs <;> omega
  rw [decodeTimeWithExtra, toInt32_time, encodeTime, isExtra, isNanoseconds, decoded,
    fromUnixTimespec, Nat.mod_eq_of_lt normal]
  congr 1
  omega

namespace InodeTimes

variable {inodeSize : Nat} {inode : InodeTimes} {given : TimeName → Option Duration}

theorem refuses_iff : inode.refuses inodeSize given name = true ↔
    ∃ time, given name = some time ∧ 2 ^ 31 ≤ time.seconds ∧
      inode.hasExtra inodeSize name = false := by
  rw [refuses]
  cases given name with
  | none => simp
  | some time =>
    have late : 2 ^ 31 - 1 < time.seconds ↔ 2 ^ 31 ≤ time.seconds := by omega
    simp only [Option.getD_some, Bool.and_eq_true, decide_eq_true_iff, Bool.not_eq_true',
      Option.some.injEq, exists_eq_left', late]

theorem updateTimestamps_cases (isReadonly : Bool) :
    (∃ error, inode.updateTimestamps inodeSize isReadonly given = (.error error, inode)) ∧
      (isReadonly = true ∨ ∃ name, inode.refuses inodeSize given name = true) ∨
    inode.updateTimestamps inodeSize isReadonly given = (.ok (), { inode with
        times := fun name => ((given name).map encodeTime).getD (inode.times name) }) ∧
      ¬ (isReadonly = true ∨ ∃ name, inode.refuses inodeSize given name = true) := by
  rw [updateTimestamps]
  split_ifs with readonly atime ctime mtime
  · exact .inl ⟨⟨_, rfl⟩, .inl readonly⟩
  · exact .inl ⟨⟨_, rfl⟩, .inr ⟨_, atime⟩⟩
  · exact .inl ⟨⟨_, rfl⟩, .inr ⟨_, ctime⟩⟩
  · exact .inl ⟨⟨_, rfl⟩, .inr ⟨_, mtime⟩⟩
  · refine .inr ⟨rfl, ?_⟩
    rintro (isReadonly | ⟨_ | _ | _, refused⟩) <;> contradiction

theorem metadata_set (set : given name = some time) (normal : time.nanoseconds < 10 ^ 9)
    (representable : inode.Representable inodeSize name time.seconds) :
    ({ inode with times := fun name => ((given name).map encodeTime).getD (inode.times name) } :
        InodeTimes).metadata inodeSize name =
      if inode.hasExtra inodeSize name then time else ⟨time.seconds, 0⟩ := by
  obtain ⟨low, high⟩ := representable
  change (if inode.hasExtra inodeSize name then _ else _) = _
  simp only [set, Option.map_some, Option.getD_some]
  split_ifs at high ⊢
  · exact decodeTimeWithExtra_encodeTime low high normal
  · rw [toInt32_time, toInt32]
    congr 1
    omega

/-- Times round-trip iff the call is refused or all of them can be stored. -/
theorem updateTimestamps_roundTrips_iff
    (normal : ∀ name time, given name = some time → time.nanoseconds < 10 ^ 9) (isReadonly : Bool) :
    inode.RoundTrips inodeSize isReadonly given ↔ isReadonly = true ∨
      (∃ name time, given name = some time ∧ 2 ^ 31 ≤ time.seconds ∧
        inode.hasExtra inodeSize name = false) ∨
      ∀ name time, given name = some time → inode.Representable inodeSize name time.seconds := by
  simp only [← refuses_iff]
  rw [← or_assoc]
  rcases @updateTimestamps_cases inodeSize inode given isReadonly with
    ⟨⟨error, failed⟩, why⟩ | ⟨success, accepted⟩
  · refine iff_of_true ⟨?_, ?_, ?_⟩ (.inl why)
    · rw [failed]
      rintro _ ⟨⟩
    · intro _ _ _ _
      exact ⟨error, by rw [failed]⟩
    · rw [failed]
      rintro _ _ ⟨⟩
      rfl
  · rw [or_iff_right accepted]
    refine ⟨fun roundTrips name time set => ?_, fun representable => ⟨?_, ?_, ?_⟩⟩
    · by_contra unrepresentable
      obtain ⟨error, never⟩ := roundTrips.rejected name time set unrepresentable
      rw [success] at never
      cases never
    · rw [success]
      rintro _ ⟨⟩ name time set
      rw [metadata_set set (normal name time set) (representable name time set)]
      split_ifs with extra
      · exact ⟨rfl, fun _ => rfl⟩
      · exact ⟨rfl, fun has => absurd has extra⟩
    · intro name time set not
      exact absurd (representable name time set) not
    · rw [success]
      rintro _ _ ⟨⟩

/-- An access time in the year 2038 in an inode of 160 bytes. -/
theorem updateTimestamps_roundTrips_late : RoundTrips 256 ⟨32, fun _ => ⟨0, 0⟩⟩ false fun name =>
      if name = .atime then some ⟨2 ^ 31, 5⟩ else none := by
  refine (updateTimestamps_roundTrips_iff ?_ false).mpr (.inr (.inr ?_))
  · rintro (_ | _ | _) time ⟨⟩
    decide
  · rintro (_ | _ | _) time ⟨⟩
    exact ⟨by decide, by decide⟩

/-- A time before the year 1901 is reported as one in the year 2038. -/
theorem not_updateTimestamps_roundTrips_early :
    let answer := updateTimestamps 128 ⟨0, fun _ => ⟨0, 0⟩⟩ false fun _ => some ⟨-2 ^ 31 - 1, 0⟩
    answer.1 = .ok () ∧ answer.2.metadata 128 .atime = ⟨2 ^ 31 - 1, 0⟩ := by
  decide +kernel

end InodeTimes

end MixUpOS.Kernel.Ext2FS
