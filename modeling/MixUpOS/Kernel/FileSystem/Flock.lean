import Mathlib.Logic.Relation
import Mathlib.Tactic.SplitIfs
import MixUpOS.AK.Error

/-!
# Record locks of an inode

Locks on ranges of bytes that belong to open file descriptions.  Offsets are
signed 64-bit numbers and their sums are computed in that type.  A request that
conflicts with a lock may block until the lock is gone.
-/

namespace MixUpOS.Kernel

open AK List

inductive FlockType where
  | rdlck
  | wrlck
  | unlck
deriving DecidableEq, Repr

inductive Whence where
  | set
  | cur
  | fromEnd
  | other
deriving DecidableEq, Repr

/-- `struct flock`; `l_pid` is not read here. -/
structure FlockRequest where
  type : FlockType
  whence : Whence
  start : Int64
  len : Int64
deriving DecidableEq

/-- `D` is the type of open file descriptions. -/
structure Flock (D : Type) where
  start : Int64
  len : Int64
  owner : D
  pid : Nat
  type : FlockType
deriving DecidableEq

def rangeOverlap (start1 len1 start2 len2 : Int64) : Bool :=
  (start1 < start2 + len2 || len2 == 0) && (start2 < start1 + len1 || len1 == 0)

/-- `normalize_flock` for a description with the given offset. -/
def normalizeFlock (offset : Int64) (lock : FlockRequest) : ErrorOr FlockRequest :=
  match lock.whence with
  | .set => .ok { lock with whence := .set }
  | .cur => .ok { lock with whence := .set, start := offset + lock.start }
  | .fromEnd => .error .ENOTSUP
  | .other => .error .EINVAL

section

variable {D : Type} [DecidableEq D]

def canApplyFlockImpl (newLock : FlockRequest) (description : Option D) : List (Flock D) → Bool
  | [] => true
  | lock :: flocks =>
    if newLock.type = .unlck then true
    else if !rangeOverlap lock.start lock.len newLock.start newLock.len then
      canApplyFlockImpl newLock description flocks
    else if newLock.type = .rdlck ∧ lock.type = .wrlck then
      description == some lock.owner && lock.start == newLock.start && lock.len == newLock.len
    else if newLock.type = .wrlck then false
    else canApplyFlockImpl newLock description flocks

/-- The lock that a request downgrades or unlocks. -/
def manipulates (description : D) (newLock : FlockRequest) (lock : Flock D) : Bool :=
  ((newLock.type == .rdlck && lock.type == .wrlck) || newLock.type == .unlck) &&
    (description == lock.owner && (lock.start == newLock.start && lock.len == newLock.len))

def FlockRequest.recorded (newLock : FlockRequest) (pid : Nat) (description : D) : Flock D :=
  ⟨newLock.start, newLock.len, description, pid, newLock.type⟩

/-- `try_apply_flock`.  When a lock was removed there is room for the new one,
else `hasMemory` tells whether the vector can grow. -/
def tryApplyFlock (pid : Nat) (description : D) (newLock : FlockRequest)
    (hasMemory : Bool) (flocks : List (Flock D)) : ErrorOr Bool × List (Flock D) :=
  if !canApplyFlockImpl newLock (some description) flocks then
    (.ok false, flocks)
  else
    let didManipulateLock := flocks.any (manipulates description newLock)
    let remaining := flocks.eraseP (manipulates description newLock)
    if newLock.type = .unlck then (.ok true, remaining)
    else if !didManipulateLock && !hasMemory then (.error .ENOMEM, remaining)
    else (.ok true, remaining ++ [newLock.recorded pid description])

/-- `apply_flock` without blocking; a thread that blocks does the same again
each time it wakes up. -/
def applyFlock (pid : Nat) (description : D) (offset : Int64) (inputLock : FlockRequest)
    (hasMemory : Bool) (flocks : List (Flock D)) : ErrorOr Unit × List (Flock D) :=
  match normalizeFlock offset inputLock with
  | .error error => (.error error, flocks)
  | .ok newLock =>
    match tryApplyFlock pid description newLock hasMemory flocks with
    | (.ok true, flocks) => (.ok (), flocks)
    | (.ok false, flocks) => (.error .EAGAIN, flocks)
    | (.error error, flocks) => (.error error, flocks)

def removeFlocksForDescription (description : D) (flocks : List (Flock D)) : List (Flock D) :=
  flocks.filter fun entry => entry.owner != description

end

/-- The bytes of a range, with the sum as a number. -/
def RangeCovers (start len : Int64) (byte : Int) : Prop :=
  start.toInt ≤ byte ∧ (len = 0 ∨ byte < start.toInt + len.toInt)

/-- The end of a range is a 64-bit number. -/
def RangeFits (start len : Int64) : Prop :=
  0 ≤ start.toInt ∧ 0 ≤ len.toInt ∧ start.toInt + len.toInt < 2 ^ 63

theorem toInt_end (fits : RangeFits start len) : (start + len).toInt = start.toInt + len.toInt := by
  obtain ⟨startNonneg, lenNonneg, bound⟩ := fits
  rw [Int64.toInt_add]
  exact Int.bmod_eq_of_le (by omega) (by omega)

namespace Flock

variable {D : Type}

def Covers (lock : Flock D) (byte : Int) : Prop := RangeCovers lock.start lock.len byte

/-- A write lock has no byte in common with the other lock. -/
def Excludes (one other : Flock D) : Prop :=
  one.type = .wrlck ∨ other.type = .wrlck → ∀ byte, ¬ (one.Covers byte ∧ other.Covers byte)

def Exclusive (flocks : List (Flock D)) : Prop := flocks.Pairwise Excludes

structure Sound (flocks : List (Flock D)) : Prop where
  exclusive : Exclusive flocks
  fits : ∀ lock ∈ flocks, RangeFits lock.start lock.len

variable {flocks : List (Flock D)} {lock : Flock D} {newLock : FlockRequest}
  {description : D} {pid : Nat}

theorem Excludes.symm (excludes : Excludes lock other) : Excludes other lock :=
  fun isWrite byte both => excludes isWrite.symm byte both.symm

theorem sound_nil : Sound ([] : List (Flock D)) := ⟨.nil, by simp⟩

theorem Sound.sublist {sublist : List (Flock D)}
    (sound : Sound flocks) (isSublist : sublist.Sublist flocks) : Sound sublist where
  exclusive := sound.exclusive.sublist isSublist
  fits := fun lock member => sound.fits lock (isSublist.subset member)

theorem Sound.append (sound : Sound flocks) (fits : RangeFits lock.start lock.len)
    (excludes : ∀ other ∈ flocks, Excludes other lock) : Sound (flocks ++ [lock]) where
  exclusive := by
    refine pairwise_append.mpr ⟨sound.exclusive, pairwise_singleton _ _, ?_⟩
    intro other isOther added isAdded
    rw [mem_singleton.mp isAdded]
    exact excludes other isOther
  fits := by
    intro other isOther
    rcases mem_append.mp isOther with isOld | isAdded
    · exact sound.fits other isOld
    · rw [mem_singleton.mp isAdded]
      exact fits

/-- A lock that a request waits for. -/
def Conflicts (request : FlockRequest) (lock : Flock D) : Prop :=
  rangeOverlap lock.start lock.len request.start request.len = true ∧
    (request.type = .wrlck ∨ request.type = .rdlck ∧ lock.type = .wrlck)

variable [DecidableEq D]

/-- A request to lock is granted if it conflicts with no lock, or downgrades one. -/
theorem conflicts_of_canApply (isLocking : newLock.type ≠ .unlck)
    (canApply : canApplyFlockImpl newLock (some description) flocks = true) :
    (∀ other ∈ flocks, ¬ other.Conflicts newLock) ∨
      newLock.type = .rdlck ∧ ∃ other ∈ flocks, manipulates description newLock other = true := by
  induction flocks with
  | nil => simp
  | cons lock flocks ih =>
    rw [canApplyFlockImpl, if_neg isLocking] at canApply
    by_cases conflicts : lock.Conflicts newLock
    · obtain ⟨overlaps, isWrite | ⟨isRead, lockWrites⟩⟩ := conflicts
      · simp [overlaps, isWrite] at canApply
      · rw [overlaps, if_neg (by simp), if_pos ⟨isRead, lockWrites⟩] at canApply
        simp only [Bool.and_eq_true, beq_iff_eq, Option.some.injEq] at canApply
        simp [manipulates, isRead, lockWrites, canApply]
    · have continues : canApplyFlockImpl newLock (some description) flocks = true := by
        rw [Conflicts] at conflicts
        split_ifs at canApply <;> simp_all
      rcases ih continues with noneConflicts | ⟨isRead, other, isOther, same⟩
      · exact .inl (forall_mem_cons.mpr ⟨conflicts, noneConflicts⟩)
      · exact .inr ⟨isRead, other, mem_cons_of_mem lock isOther, same⟩

/-- What is left after a write lock was taken out has no byte in common with
it. -/
theorem Sound.erase_excludes (sound : Sound flocks)
    (found : ∃ other ∈ flocks, manipulates description newLock other = true)
    (isRead : newLock.type = .rdlck) :
    ∀ other ∈ flocks.eraseP (manipulates description newLock),
      Excludes other (newLock.recorded pid description) := by
  obtain ⟨lock, isLock, manipulated⟩ := found
  obtain ⟨found, before, after, _, isManipulated, isFlocks, isErased⟩ :=
    exists_of_eraseP isLock manipulated
  have isRange : found.type = .wrlck ∧ found.start = newLock.start ∧ found.len = newLock.len := by
    simp only [manipulates, isRead, Bool.and_eq_true, Bool.or_eq_true, beq_iff_eq] at isManipulated
    simp_all
  rw [isErased]
  intro other isOther isWrite byte
  have exclusive := sound.exclusive
  rw [isFlocks] at exclusive
  have apart : Excludes found other := by
    have moved := (perm_middle).pairwise_iff (fun x => Excludes.symm x)
      |>.mp exclusive
    exact (pairwise_cons.mp moved).1 other isOther
  have noByte := apart (.inl isRange.1) byte
  rw [Covers, isRange.2.1, isRange.2.2] at noByte
  exact fun both => noByte both.symm

theorem Sound.tryApply (sound : Sound flocks) {hasMemory : Bool}
    (fits : newLock.type = .unlck ∨ RangeFits newLock.start newLock.len) :
    Sound (tryApplyFlock pid description newLock hasMemory flocks).2 := by
  have remaining := sound.sublist (eraseP_sublist (p := manipulates description newLock))
  rw [tryApplyFlock]
  by_cases canApply : canApplyFlockImpl newLock (some description) flocks = true
  · rw [canApply, if_neg (by simp)]
    by_cases isUnlock : newLock.type = .unlck
    · simp only [isUnlock, if_true]
      exact remaining
    have rangeFits := fits.resolve_left isUnlock
    simp only [isUnlock, if_false]
    split_ifs
    · exact remaining
    refine remaining.append rangeFits ?_
    rcases conflicts_of_canApply isUnlock canApply with noneConflicts | ⟨isRead, found⟩
    · intro other isOther isWrite
      have isOld := eraseP_sublist.subset isOther
      have someWrites : newLock.type = .wrlck ∨ newLock.type = .rdlck ∧ other.type = .wrlck := by
        cases isType : newLock.type <;> simp_all [FlockRequest.recorded]
      have apart : ¬ rangeOverlap _ _ _ _ := fun overlaps =>
        noneConflicts other isOld ⟨overlaps, someWrites⟩
      rw [rangeOverlap, Bool.not_eq_true, Bool.and_eq_false_iff] at apart
      simp only [Bool.or_eq_false_iff, decide_eq_false_iff_not, Int64.lt_iff_toInt_lt,
        toInt_end (sound.fits other isOld), toInt_end rangeFits, beq_eq_false_iff_ne] at apart
      rintro byte ⟨⟨afterFirst, beforeFirst⟩, afterSecond, beforeSecond⟩
      simp only [FlockRequest.recorded] at afterSecond beforeSecond
      rcases apart with ⟨notBefore, notOpen⟩ | ⟨notBefore, notOpen⟩
      · have inRange := beforeSecond.resolve_left notOpen
        omega
      · have inRange := beforeFirst.resolve_left notOpen
        omega
    · exact sound.erase_excludes found isRead
  · rw [Bool.not_eq_true] at canApply
    rw [canApply]
    exact sound

/-- A request of a process, or the end of a description. -/
inductive Step (D : Type) where
  | apply (pid : Nat) (description : D) (offset : Int64)
    (inputLock : FlockRequest) (hasMemory : Bool)
  | close (description : D)

def perform (flocks : List (Flock D)) : Step D → List (Flock D)
  | .apply pid description offset inputLock hasMemory =>
    (applyFlock pid description offset inputLock hasMemory flocks).2
  | .close description => removeFlocksForDescription description flocks

/-- The start and the length are not negative after normalization. -/
def Admits : Step D → Prop
  | .apply _ _ offset inputLock _ =>
    ∀ newLock, normalizeFlock offset inputLock = .ok newLock →
      0 ≤ newLock.start.toInt ∧ 0 ≤ newLock.len.toInt
  | .close _ => True

/-- The end of the range to lock is a 64-bit number. -/
def Fits : Step D → Prop
  | .apply _ _ offset inputLock _ =>
    ∀ newLock, normalizeFlock offset inputLock = .ok newLock → newLock.type = .unlck ∨
        newLock.start.toInt + newLock.len.toInt < 2 ^ 63
  | .close _ => True

inductive Run (admits : Step D → Prop) : List (Flock D) → Prop where
  | start : Run admits []
  | step {flocks : List (Flock D)} {step : Step D}
      (run : Run admits flocks) (admitted : admits step) :
      Run admits (perform flocks step)

/-- The description unlocks the range, downgrades it or is closed. -/
def Releases (lock : Flock D) : Step D → Prop
  | .apply _ description offset inputLock _ =>
    ∃ newLock, normalizeFlock offset inputLock = .ok newLock ∧
      manipulates description newLock lock = true
  | .close description => description = lock.owner

/-- Steps that do not release a lock. -/
def Keeps (lock : Flock D) (flocks later : List (Flock D)) : Prop :=
  ∃ step, ¬ Releases lock step ∧ later = perform flocks step

theorem applyFlock_cases (pid : Nat) (description : D)
    (offset : Int64) (inputLock : FlockRequest) (hasMemory : Bool) (flocks : List (Flock D)) :
    (applyFlock pid description offset inputLock hasMemory flocks).2 = flocks ∨
      ∃ newLock, normalizeFlock offset inputLock = .ok newLock ∧
        (applyFlock pid description offset inputLock hasMemory flocks).2 =
          (tryApplyFlock pid description newLock hasMemory flocks).2 := by
  rw [applyFlock]
  cases normalizeFlock offset inputLock with
  | error error => exact .inl rfl
  | ok newLock =>
    refine .inr ⟨newLock, rfl, ?_⟩
    dsimp only
    rcases tryApplyFlock pid description newLock hasMemory flocks with
      ⟨(error | (_ | _)), later⟩ <;> rfl

theorem Sound.perform (sound : Sound flocks) {step : Step D}
    (admitted : Admits step) (fits : Fits step) : Sound (Flock.perform flocks step) := by
  cases step with
  | close description => exact sound.sublist filter_sublist
  | apply pid description offset inputLock hasMemory =>
    rw [Flock.perform]
    rcases applyFlock_cases pid description offset inputLock hasMemory
      flocks with same | ⟨newLock, isLock, same⟩
    · rw [same]
      exact sound
    · rw [same]
      refine sound.tryApply ?_
      obtain ⟨startNonneg, lenNonneg⟩ := admitted newLock isLock
      exact (fits newLock isLock).imp_right fun bound => ⟨startNonneg, lenNonneg, bound⟩

theorem Run.sound (run : Run (fun step => Admits step ∧ Fits step) flocks) : Sound flocks := by
  induction run with
  | start => exact sound_nil
  | step run admitted sound => exact sound.perform admitted.1 admitted.2

theorem mem_perform (isLock : lock ∈ flocks) (kept : ¬ Releases lock step) :
    lock ∈ perform flocks step := by
  cases step with
  | close description =>
    refine mem_filter.mpr ⟨isLock, ?_⟩
    exact bne_iff_ne.mpr (Ne.symm kept)
  | apply pid description offset inputLock hasMemory =>
    rw [perform]
    rcases applyFlock_cases pid description offset inputLock hasMemory
      flocks with same | ⟨newLock, isNormal, same⟩
    · rw [same]
      exact isLock
    · rw [same]
      have remains : lock ∈ flocks.eraseP (manipulates description newLock) :=
        (mem_eraseP_of_neg fun manipulated => kept ⟨newLock, isNormal, manipulated⟩).mpr isLock
      simp only [tryApplyFlock]
      split_ifs
      · exact isLock
      · exact remains
      · exact remains
      · exact mem_append_left _ remains

/-- In every state of every run whose requests have an end that is a 64-bit
number, no byte is covered by a write lock and another lock; and a granted
request stays recorded until its description unlocks the range, downgrades it
or is closed. -/
theorem record_locks_exclude (run : Run (fun step => Admits step ∧ Fits step) flocks) :
    Exclusive flocks ∧ ∀ pid description offset inputLock hasMemory newLock later,
        normalizeFlock offset inputLock = .ok newLock → newLock.type ≠ .unlck →
        (applyFlock pid description offset inputLock hasMemory flocks).1 = .ok () →
        Relation.ReflTransGen (Keeps (newLock.recorded pid description))
          (applyFlock pid description offset inputLock hasMemory flocks).2 later →
        newLock.recorded pid description ∈ later := by
  refine ⟨run.sound.exclusive, ?_⟩
  intro pid description offset inputLock hasMemory newLock later isNormal isLocking granted path
  induction path with
  | refl =>
    rw [applyFlock, isNormal] at granted ⊢
    simp only [tryApplyFlock, isLocking, if_false] at granted ⊢
    split_ifs at granted ⊢
    exact List.mem_append_right _ List.mem_cons_self
  | tail path step inLater =>
    obtain ⟨step, kept, rfl⟩ := step
    exact mem_perform inLater kept

/-- One description downgrades its write lock, and then another one may read
the same range. -/
theorem record_locks_exclude_downgrade :
    ∃ flocks : List (Flock Bool), Run (fun step => Admits step ∧ Fits step) flocks ∧
      flocks = [⟨0, 10, false, 1, .rdlck⟩, ⟨0, 10, true, 2, .rdlck⟩] ∧ Exclusive flocks := by
  have admitted (pid : Nat) (description : Bool) (type : FlockType) :
      Admits (.apply pid description 0 ⟨type, .set, 0, 10⟩ true) ∧
        Fits (.apply pid description 0 ⟨type, .set, 0, 10⟩ true) := by
    constructor
    · rintro newLock ⟨⟩
      exact (by decide : 0 ≤ (0 : Int64).toInt ∧ 0 ≤ (10 : Int64).toInt)
    · rintro newLock ⟨⟩
      exact .inr (by decide : (0 : Int64).toInt + (10 : Int64).toInt < 2 ^ 63)
  have initial : Run (fun step => Admits step ∧ Fits step) ([] : List (Flock Bool)) := .start
  have first := Run.step initial (admitted 1 false .wrlck)
  have second := Run.step first (admitted 1 false .rdlck)
  have third := Run.step second (admitted 2 true .rdlck)
  exact ⟨_, third, by decide, (record_locks_exclude third).1⟩

/-- The end of the range is `2 ^ 63`, not a signed 64-bit number, and two
descriptions get a write lock on it. -/
theorem not_exclusive_overflow : ∃ flocks : List (Flock Bool), Run Admits flocks ∧ flocks =
        [⟨0x4000000000000000, 0x4000000000000000, false, 1, .wrlck⟩,
          ⟨0x4000000000000000, 0x4000000000000000, true, 2, .wrlck⟩] ∧ ¬ Exclusive flocks := by
  have admitted (pid : Nat) (description : Bool) : Admits (.apply pid description 0
        ⟨.wrlck, .set, 0x4000000000000000, 0x4000000000000000⟩ true) := by
    rintro newLock ⟨⟩
    decide
  have first := Run.step .start (admitted 1 false)
  have second := Run.step first (admitted 2 true)
  refine ⟨_, second, by decide, ?_⟩
  intro exclusive
  have apart := (List.pairwise_cons.mp exclusive).1 _ List.mem_cons_self
    (.inl rfl) 0x4000000000000000
  have covered : RangeCovers 0x4000000000000000 0x4000000000000000
      0x4000000000000000 := ⟨by decide, .inr (by decide)⟩
  exact apart ⟨covered, covered⟩

/-- The locks, and the requests that are blocked in `apply_flock`.  The spinlock
`m_flocks` is left out: `try_apply_flock` holds it when it wakes blocked
requests, which take it again. -/
structure Queue (D : Type) where
  flocks : List (Flock D)
  blocked : List FlockRequest

/-- A step, for which a thread may block, or a signal for a blocked thread. -/
inductive Event (D : Type) where
  | step (step : Step D) (shouldBlock : Bool)
  | interrupt (request : FlockRequest)

namespace Queue

variable {D : Type}

/-- Every blocked request waits for a lock. -/
def Waits (queue : Queue D) : Prop :=
  ∀ request ∈ queue.blocked, ∃ lock ∈ queue.flocks, lock.Conflicts request

/-- A description is closed only while every blocked request waits for a lock of
another one. -/
def Harmless (queue : Queue D) : Event D → Prop
  | .step (.close description) _ => ∀ request ∈ queue.blocked, ∃ lock ∈ queue.flocks,
      lock.owner ≠ description ∧ lock.Conflicts request
  | _ => True

variable [DecidableEq D]

/-- `unblock_all_blockers_whose_conditions_are_met`.  A thread that wakes up makes
its attempt again. -/
def unblockAll (flocks : List (Flock D)) (blocked : List FlockRequest) : List FlockRequest :=
  blocked.filter fun request => !canApplyFlockImpl request none flocks

/-- What is blocked after a step; a blocker is examined when it is added. -/
def blockedAfter (queue : Queue D) (shouldBlock : Bool) : Step D → List FlockRequest
  | .close _ => queue.blocked
  | .apply pid description offset inputLock hasMemory =>
    match normalizeFlock offset inputLock with
    | .error _ => queue.blocked
    | .ok newLock =>
      let later := perform queue.flocks (.apply pid description offset inputLock hasMemory)
      if !canApplyFlockImpl newLock (some description) queue.flocks then
        if shouldBlock then unblockAll later [newLock] ++ queue.blocked else queue.blocked
      else if queue.flocks.any (manipulates description newLock) then
        unblockAll later queue.blocked
      else queue.blocked

def react (queue : Queue D) : Event D → Queue D
  | .step step shouldBlock => ⟨perform queue.flocks step, queue.blockedAfter shouldBlock step⟩
  | .interrupt request => ⟨queue.flocks, queue.blocked.erase request⟩

inductive Run (admits : Queue D → Event D → Prop) :
    Queue D → Prop where
  | start : Run admits ⟨[], []⟩
  | step {queue : Queue D} (run : Run admits queue) {event : Event D}
      (admitted : admits queue event) : Run admits (queue.react event)

variable {queue : Queue D} {request : FlockRequest} {flocks : List (Flock D)}

theorem canApply_eq_false_iff : canApplyFlockImpl request none flocks = false ↔
    ∃ lock ∈ flocks, lock.Conflicts request := by
  induction flocks with
  | nil => simp [canApplyFlockImpl]
  | cons lock flocks ih =>
    simp only [mem_cons, exists_eq_or_imp, ← ih]
    rw [canApplyFlockImpl, Conflicts]
    cases isType : request.type with
    | unlck => cases flocks <;> simp [canApplyFlockImpl, isType]
    | rdlck | wrlck =>
      cases rangeOverlap lock.start lock.len request.start request.len <;>
        cases lock.type <;> simp

theorem waits_unblockAll (flocks : List (Flock D)) (blocked : List FlockRequest) :
    Waits ⟨flocks, unblockAll flocks blocked⟩ := by
  intro request member
  rw [unblockAll, mem_filter, Bool.not_eq_true', canApply_eq_false_iff] at member
  exact member.2

/-- Every blocked request goes on waiting for a lock, unless the description of the
last such lock is closed. -/
theorem Waits.react_iff (waits : queue.Waits) (event : Event D) :
    (queue.react event).Waits ↔ queue.Harmless event := by
  have mono : ∀ {later : List (Flock D)}, (∀ lock ∈ queue.flocks, lock ∈ later) →
      Waits ⟨later, queue.blocked⟩ := by
    intro later kept request member
    obtain ⟨lock, isLock, conflicts⟩ := waits request member
    exact ⟨lock, kept lock isLock, conflicts⟩
  cases event with
  | interrupt request =>
    exact iff_of_true (fun other member => waits other (mem_of_mem_erase member)) trivial
  | step step shouldBlock =>
    cases step with
    | close description =>
      simp [react, Waits, Harmless, perform, blockedAfter, removeFlocksForDescription, and_assoc]
    | apply pid description offset inputLock hasMemory =>
      refine iff_of_true ?_ trivial
      rw [react, blockedAfter]
      cases isNormal : normalizeFlock offset inputLock with
      | error error =>
        refine mono fun lock isLock => mem_perform isLock ?_
        rintro ⟨newLock, never, _⟩
        rw [isNormal] at never
        cases never
      | ok newLock =>
        dsimp only
        split_ifs with refused blocks manipulated
        · intro request member
          rcases mem_append.mp member with added | old
          · exact waits_unblockAll _ [newLock] request added
          · refine mono ?_ request old
            simp [perform, applyFlock, isNormal, tryApplyFlock, refused]
        · refine mono ?_
          simp [perform, applyFlock, isNormal, tryApplyFlock, refused]
        · exact waits_unblockAll _ _
        · refine mono fun lock isLock => mem_perform isLock ?_
          rintro ⟨other, same, isOne⟩
          cases isNormal.symm.trans same
          exact manipulated (any_eq_true.mpr ⟨lock, isLock, isOne⟩)

/-- In every state of every run in which descriptions are closed only while every
blocked request waits for a lock of another one, no blocked request can be applied;
and closing any other description would leave one that can. -/
theorem blocked_requests_wait (run : Run Harmless queue) :
    (∀ request ∈ queue.blocked, canApplyFlockImpl request none queue.flocks = false) ∧
      ∀ event, (queue.react event).Waits ↔ queue.Harmless event := by
  have waits : queue.Waits := by
    induction run with
    | start => simp [Waits]
    | step run admitted waits => exact (waits.react_iff _).mpr admitted
  exact ⟨fun request member => canApply_eq_false_iff.mpr (waits request member), waits.react_iff⟩

/-- A process writes to the first ten bytes. -/
def write (description : Bool) : Event Bool :=
  .step (.apply 1 description 0 ⟨.wrlck, .set, 0, 10⟩ true) true

/-- The second writer waits for the first one. -/
theorem blocked_requests_wait_writer : canApplyFlockImpl ⟨.wrlck, .set, 0, 10⟩ none
      (react (react ⟨[], []⟩ (write false)) (write true)).flocks = false := by
  have run : Run Harmless (react (react ⟨[], []⟩ (write false)) (write true)) :=
    (Run.start.step trivial).step trivial
  exact (blocked_requests_wait run).1 _ List.mem_cons_self

/-- The first writer closes its description, and nothing wakes the second one. -/
theorem not_wait_closed : ∃ queue : Queue Bool, Run (fun _ _ => True) queue ∧
    ∃ request ∈ queue.blocked, canApplyFlockImpl request none queue.flocks = true := by
  refine ⟨react (react (react ⟨[], []⟩ (write false)) (write true)) (.step (.close false) false),
    ((Run.start.step trivial).step trivial).step trivial, _, List.mem_cons_self, rfl⟩

end Queue

end Flock

end MixUpOS.Kernel
