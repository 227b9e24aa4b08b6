import MixUpOS.AK.BitmapSearch

/-!
# The ranges that the searches of a bitmap should find

The searches take an empty bucket as a whole and start over behind the last
bucket, cut a run at the end of the buckets, and return as little as is asked
for behind that end.  They are right for the ranges that none of this
concerns.
-/

namespace MixUpOS.AK

open Nat

namespace Bitmap

section

variable {bitmap : Bitmap} {minLength maxLength «from» start stop : Nat}

/-- Unset bits up to the first set bit or the end of the bitmap. -/
structure Run (bitmap : Bitmap) (start stop : Nat) : Prop where
  inside : stop ≤ bitmap.size
  unset : bitmap.Unset start stop
  ends : stop = bitmap.size ∨ bitmap.bitAt stop = true

theorem exists_run (inside : stop ≤ bitmap.size) (unset : bitmap.Unset start stop) :
    ∃ last, stop ≤ last ∧ bitmap.Run start last := by
  induction remaining : bitmap.size - stop generalizing stop with
  | zero => exact ⟨stop, le_refl _, inside, unset, .inl (by omega)⟩
  | succ remaining ih =>
    cases isSet : bitmap.bitAt stop with
    | true => exact ⟨stop, le_refl _, inside, unset, .inr isSet⟩
    | false =>
      obtain ⟨last, above, run⟩ := ih (by omega) (unset.append (unset_one isSet)) (by omega)
      exact ⟨last, by omega, run⟩

theorem Unset.le_of_run (run : bitmap.Run start stop) (unset : bitmap.Unset start other)
    (inside : other ≤ bitmap.size) (above : start ≤ stop) : other ≤ stop := by
  rcases run.ends with isEnd | isSet
  · omega
  · exact unset.le_of_set isSet above

/-- The answer that is asked for: the first run from the given position, cut
at the greatest length. -/
def FindsFirst (bitmap : Bitmap) («from» minLength maxLength : Nat) : Option (Nat × Nat) → Prop
  | none => bitmap.NoRange minLength «from» bitmap.size
  | some (start, length) => «from» ≤ start ∧ bitmap.NoRange minLength «from» start ∧
      ∃ stop, bitmap.Run start stop ∧ start + minLength ≤ stop ∧
        length = min (stop - start) maxLength

/-- No range starts where the search starts too early, and the first run ends
before the bits behind the last bucket, unless its end is not asked for. -/
def SearchFits (bitmap : Bitmap) («from» minLength maxLength : Nat) : Prop :=
  bitmap.NoRange minLength (bitmap.searchStart «from») «from» ∧
    ∀ start stop, «from» ≤ start → bitmap.NoRange minLength «from» start →
      bitmap.Run start stop → start + minLength ≤ stop →
      if start + minLength ≤ bitmap.bucketsEnd then
        stop ≤ bitmap.bucketsEnd ∨ start + maxLength ≤ bitmap.bucketsEnd
      else maxLength = minLength ∨ stop = start + minLength

theorem searchStart_le : bitmap.searchStart «from» ≤ «from» := by
  unfold searchStart bucketEntry bucketsEnd
  have split := div_add_mod' «from» bitSize
  split
  · split <;> omega
  next outside =>
    have below := Nat.mul_le_mul_right bitSize (Nat.le_of_not_lt outside)
    omega

theorem NoRange.mono (none : bitmap.NoRange minLength lower stop) (above : lower ≤ start)
    (below : other ≤ stop) : bitmap.NoRange minLength start other :=
  fun index indexAbove indexBelow =>
    none index (by omega) (by omega)

theorem NoRange.eq (none : bitmap.NoRange minLength «from» start)
    (otherNone : bitmap.NoRange minLength «from» other) (above : «from» ≤ start)
    (otherAbove : «from» ≤ other) (inside : start + minLength ≤ bitmap.size)
    (otherInside : other + minLength ≤ bitmap.size) (unset : bitmap.Unset start (start + minLength))
    (otherUnset : bitmap.Unset other (other + minLength)) : other = start := by
  rcases lt_trichotomy other start with before | same | behind
  · exact absurd otherUnset (none other otherAbove before otherInside)
  · exact same
  · exact absurd unset (otherNone start above behind inside)

theorem Unset.mono (unset : bitmap.Unset start stop) (below : other ≤ stop) :
    bitmap.Unset start other :=
  fun index above indexBelow => unset index above (by omega)

/-- The length that is returned for a run, and the condition under which it is
the one that is asked for. -/
theorem Locates.length_iff
    (located : bitmap.Locates minLength maxLength lower (some (start, length)))
    (order : minLength ≤ maxLength) (run : bitmap.Run start stop)
    (long : start + minLength ≤ stop) :
    length = min (stop - start) maxLength ↔
      if start + minLength ≤ bitmap.bucketsEnd then
        stop ≤ bitmap.bucketsEnd ∨ start + maxLength ≤ bitmap.bucketsEnd
      else maxLength = minLength ∨ stop = start + minLength := by
  obtain ⟨found, _, cut⟩ := located
  have reaches := found.unset.le_of_run run found.inside (by omega)
  have isLong := found.long
  rcases cut with ⟨before, atMost, isMaximum | isSet⟩ | ⟨atMost, atEnd⟩ | ⟨isMinimum, behind⟩
  · rw [if_pos (by omega)]
    omega
  · have ends := run.unset.le_of_set isSet (by omega)
    rw [if_pos (by omega)]
    omega
  · rw [if_pos (by omega)]
    omega
  · rw [if_neg (by omega)]
    omega

/-- The search finds the first run exactly if it does not start too early and
the end of the run is not behind the last bucket or not asked for. -/
theorem findNextRangeOfUnsetBits_findsFirst_iff (bitmap : Bitmap) («from» : Nat)
    {minLength maxLength : Nat} (positive : 1 ≤ minLength) (order : minLength ≤ maxLength) :
    bitmap.FindsFirst «from» minLength maxLength
        (bitmap.findNextRangeOfUnsetBits «from» minLength maxLength) ↔
      bitmap.SearchFits «from» minLength maxLength := by
  have located := @findNextRangeOfUnsetBits_locates bitmap _ _ positive order «from»
  cases isResult : bitmap.findNextRangeOfUnsetBits «from» minLength maxLength with
  | none =>
    rw [isResult] at located
    have none : bitmap.NoRange minLength «from» bitmap.size :=
      NoRange.mono located searchStart_le (Nat.le_refl _)
    refine ⟨fun _ => ⟨?_, ?_⟩, fun _ => none⟩
    · intro start above below inside
      exact located start above (by omega) inside
    · intro start stop above _ run long
      have inside := run.inside
      exact absurd (run.unset.mono long) (none start above (by omega) (by omega))
  | some range =>
    obtain ⟨start, length⟩ := range
    rw [isResult] at located
    have found := located.1
    have passed := located.2.1
    have inside := found.inside
    have isLong := found.long
    have unset : bitmap.Unset start (start + minLength) := found.unset.mono (by omega)
    constructor
    · rintro ⟨above, fromNone, stop, run, long, isLength⟩
      refine ⟨passed.mono (Nat.le_refl _) above, ?_⟩
      intro other otherStop otherAbove otherNone otherRun otherLong
      have otherInside := otherRun.inside
      obtain rfl := fromNone.eq otherNone above otherAbove (by omega)
        (by omega) unset (otherRun.unset.mono otherLong)
      have same : otherStop = stop := Nat.le_antisymm
        (otherRun.unset.le_of_run run otherInside (by omega))
        (run.unset.le_of_run otherRun run.inside (by omega))
      rw [same]
      exact (located.length_iff order run long).mp isLength
    · rintro ⟨early, fits⟩
      have above : «from» ≤ start := by
        by_contra before
        exact early start found.above (by omega) (by omega) unset
      have fromNone := passed.mono (@searchStart_le bitmap «from») (Nat.le_refl start)
      obtain ⟨stop, reaches, run⟩ := exists_run inside found.unset
      refine ⟨above, fromNone, stop, run, by omega, ?_⟩
      exact (located.length_iff order run (by omega)).mpr
        (fits start stop above fromNone run (by omega))

/-- One unset bit between two others is found. -/
theorem findNextRangeOfUnsetBits_findsFirst_one : FindsFirst ⟨[true, false, true]⟩ 0 1 1
      (findNextRangeOfUnsetBits ⟨[true, false, true]⟩ 0 1 1) := by
  refine (findNextRangeOfUnsetBits_findsFirst_iff _ 0 (by decide) (by decide)).mpr ⟨?_, ?_⟩
  · intro start _ below
    omega
  · intro start stop _ _ _ _
    split
    next never => exact absurd never (Nat.not_succ_le_zero start)
    next => exact .inl rfl

/-- Ten unset bits: only one of them is returned, and a search from the sixth
returns the first. -/
theorem not_findsFirst_trailing :
    findNextRangeOfUnsetBits ⟨List.replicate 10 false⟩ 5 1 10 = some (0, 1) ∧
      ¬ FindsFirst ⟨List.replicate 10 false⟩ 0 1 10
        (findNextRangeOfUnsetBits ⟨List.replicate 10 false⟩ 0 1 10) ∧
      ¬ FindsFirst ⟨List.replicate 10 false⟩ 5 1 10
        (findNextRangeOfUnsetBits ⟨List.replicate 10 false⟩ 5 1 10) := by
  have first : findNextRangeOfUnsetBits ⟨List.replicate 10 false⟩ 0 1 10 =
      some (0, 1) := by decide +kernel
  have sixth : findNextRangeOfUnsetBits ⟨List.replicate 10 false⟩ 5 1 10 =
      some (0, 1) := by decide +kernel
  rw [first, sixth]
  refine ⟨rfl, ?_, ?_⟩
  · rintro ⟨_, _, stop, run, _, isLength⟩
    have all : ∀ index < 10, bitAt ⟨List.replicate 10 false⟩ index = false := by decide
    have unset : Unset ⟨List.replicate 10 false⟩ 0 10 := fun index _ below => all index below
    have reaches := unset.le_of_run run (Nat.le_refl _) (Nat.zero_le _)
    omega
  · rintro ⟨never, _⟩
    omega

/-- A run that is not part of a longer one and long enough. -/
structure MaximalRun (bitmap : Bitmap) (minLength start stop : Nat) :
    Prop extends bitmap.Run start stop where
  starts : start = 0 ∨ bitmap.bitAt (start - 1) = true
  long : start + minLength ≤ stop

/-- The answer that is asked for: the start of a shortest run. -/
def IsBestFit (bitmap : Bitmap) (minLength : Nat) : Option Nat → Prop
  | none => bitmap.NoRange minLength 0 bitmap.size
  | some start => ∃ stop, bitmap.MaximalRun minLength start stop ∧ ∀ otherStart otherStop,
        bitmap.MaximalRun minLength otherStart otherStop →
        stop - start ≤ otherStop - otherStart

/-- The length of a shortest run among those in front of a position. -/
def ShortestBefore (bitmap : Bitmap) (minLength position length : Nat) : Prop :=
  (∃ start, start + length ≤ position ∧ bitmap.MaximalRun minLength start (start + length)) ∧
    ∀ start stop, bitmap.MaximalRun minLength start stop →
      stop ≤ position → length ≤ stop - start

/-- A run that is longer than a shortest one before it is passed over in steps
of that length, up to its end or that of the whole buckets.  The steps do not
enter an empty bucket, and less than is asked for is left behind them, or the
length is the least one. -/
structure Passable (bitmap : Bitmap) (minLength start stop length : Nat) : Prop where
  rest : length = minLength ∨
    (min stop bitmap.bucketsEnd - start) % length + (stop - bitmap.bucketsEnd) < minLength
  entries : ∀ steps, start + steps * length < min stop bitmap.bucketsEnd →
    bitmap.searchStart (start + steps * length) = start + steps * length

/-- No run starts behind the whole buckets, the length of the first one fits,
and longer ones can be passed over. -/
structure BestFitFits (bitmap : Bitmap) (minLength : Nat) : Prop where
  behind : bitmap.NoRange minLength bitmap.bucketsEnd bitmap.size
  first : ∀ start stop, bitmap.MaximalRun minLength start stop →
    bitmap.NoRange minLength 0 start → stop - start ≤ maxSize
  passes : ∀ start stop length, bitmap.MaximalRun minLength start stop →
    bitmap.ShortestBefore minLength start length → length < stop - start →
    bitmap.Passable minLength start stop length

theorem MaximalRun.le_of_lt (run : bitmap.MaximalRun minLength start stop)
    (other : bitmap.MaximalRun minLength otherStart otherStop)
    (before : start < otherStart) : stop ≤ otherStart := by
  rcases other.starts with isZero | isSet
  · omega
  · have ends := run.unset.le_of_set isSet (by omega)
    omega

theorem MaximalRun.stop_eq (run : bitmap.MaximalRun minLength start stop)
    (other : bitmap.MaximalRun minLength start otherStop) : otherStop = stop := by
  have long := run.long
  have otherLong := other.long
  exact le_antisymm (other.unset.le_of_run run.toRun other.inside (by omega))
    (run.unset.le_of_run other.toRun run.inside (by omega))

theorem exists_maximalRun (inside : stop ≤ bitmap.size)
    (unset : bitmap.Unset start stop) (long : start + minLength ≤ stop) :
    ∃ first last, first ≤ start ∧ stop ≤ last ∧ bitmap.MaximalRun minLength first last := by
  induction start with
  | zero =>
    obtain ⟨last, reaches, run⟩ := exists_run inside unset
    exact ⟨0, last, le_refl _, reaches, run, .inl rfl, by omega⟩
  | succ start ih =>
    cases isSet : bitmap.bitAt start with
    | true =>
      obtain ⟨last, reaches, run⟩ := exists_run inside unset
      exact ⟨start + 1, last, le_refl _, reaches, run, .inr isSet, by omega⟩
    | false =>
      obtain ⟨first, last, before, reaches, run⟩ := ih ((unset_one isSet).append unset) (by omega)
      exact ⟨first, last, by omega, reaches, run⟩

theorem searchStart_of_le (behind : bitmap.bucketsEnd ≤ position) :
    bitmap.searchStart position = bitmap.bucketsEnd := by
  have whole := Nat.div_le_div_right (c := bitSize) behind
  rw [bucketsEnd, Nat.mul_div_cancel _ (by decide)] at whole
  exact if_neg (not_lt.mpr whole)

theorem searchStart_of_run (run : bitmap.Run start stop) :
    bitmap.searchStart stop = min stop bitmap.bucketsEnd := by
  by_cases behind : bitmap.bucketsEnd ≤ stop
  · rw [searchStart_of_le behind, min_eq_right behind]
  have split := div_add_mod' stop bitSize
  have inside : stop / bitSize < bitmap.size / bitSize :=
    Nat.div_lt_of_lt_mul (by rw [Nat.mul_comm]; exact not_le.mp behind)
  have nonempty : bitmap.bucket (stop / bitSize) ≠ 0 := by
    intro empty
    have isUnset := @testBit_bucket bitmap (stop / bitSize) _
      (mod_lt stop (by decide : 0 < bitSize))
    rw [empty, zero_testBit, split] at isUnset
    have whole := div_mul_le_self bitmap.size bitSize
    unfold bucketsEnd at behind
    rcases run.ends with isEnd | isSet
    · omega
    · rw [← isUnset] at isSet
      cases isSet
  rw [searchStart, if_pos inside, bucketEntry, if_neg nonempty, split,
    min_eq_left (not_le.mp behind).le]

/-- The state of the search for the best fit: a position at which the search
for the next range starts, the best run in front of it, and how far a longer
run has been passed over. -/
structure Searching (bitmap : Bitmap) (minLength position : Nat)
    (best : BestRegion) : Prop where
  entry : bitmap.searchStart position = min position bitmap.bucketsEnd
  unfound : best.found = false → best.size = maxSize ∧
    ∀ start stop, bitmap.MaximalRun minLength start stop → position ≤ start
  found : best.found = true → best.start < position ∧
    bitmap.MaximalRun minLength best.start (best.start + best.size) ∧
    ∀ start stop, bitmap.MaximalRun minLength start stop →
      start < position → best.size ≤ stop - start
  within : ∀ start stop, bitmap.MaximalRun minLength start stop →
    start < position → position < stop →
    best.found = true ∧ bitmap.ShortestBefore minLength start best.size ∧
      best.size < stop - start ∧
      ∃ steps, position = start + steps * best.size

/-- The search has come to the end of the buckets with the best run. -/
structure Finished (bitmap : Bitmap) (minLength position : Nat)
    (best : BestRegion) : Prop where
  behind : bitmap.bucketsEnd ≤ position
  order : minLength ≤ best.size
  isBestFit : bitmap.IsBestFit minLength (if best.found then some best.start else none)

variable {next length last : Nat}

/-- The runs up to the end of the first one from a position. -/
theorem MaximalRun.cases (run : bitmap.MaximalRun minLength next last)
    (passed : bitmap.NoRange minLength position next)
    (other : bitmap.MaximalRun minLength start stop)
    (before : start < last) : start < position ∨ start = next := by
  have inside := other.inside
  have long := other.long
  rcases lt_trichotomy start next with isBefore | same | behind
  · by_contra neither
    exact passed start (by omega) isBefore (by omega) (other.unset.mono other.long)
  · exact .inr same
  · have beyond := run.le_of_lt other behind
    omega

section

variable (fits : bitmap.BestFitFits minLength) (pos : 0 < minLength)

include fits pos

theorem BestFitFits.lt_bucketsEnd (run : bitmap.MaximalRun minLength start stop) :
    start < bitmap.bucketsEnd := by
  have long := run.long
  have inside := run.inside
  by_contra behind
  exact fits.behind start (not_lt.mp behind) (by omega) (by omega) (run.unset.mono long)

/-- A step through a run that is longer than the best one has the length of
the best one. -/
theorem MaximalRun.pass (run : bitmap.MaximalRun minLength start last) (isFound : best.found = true)
    (bestRun : bitmap.MaximalRun minLength best.start (best.start + best.size))
    (shortest : bitmap.ShortestBefore minLength start best.size)
    (isLonger : best.size < last - start) (before : best.start < position)
    (inside : position < last) (isPosition : position = start + steps * best.size)
    (located : bitmap.Locates minLength best.size lower (some (position, length))) :
    length = best.size ∧ bitmap.Searching minLength (position + length) best := by
  obtain ⟨rest, entries⟩ := fits.passes start last best.size run shortest isLonger
  obtain ⟨found, _, cut⟩ := located
  have long := found.long
  have order := bestRun.long
  have reaches : position + length ≤ last := found.unset.le_of_run
    ⟨run.inside, fun index above => run.unset index (by omega), run.ends⟩ found.inside inside.le
  -- What is left in front of the end of the buckets is too short for a step.
  have left : min last bitmap.bucketsEnd < position + best.size →
      position ≤ bitmap.bucketsEnd → best.size = minLength := by
    intro below above
    refine rest.resolve_right fun isRest => ?_
    rw [show min last bitmap.bucketsEnd - start = steps * best.size +
      (min last bitmap.bucketsEnd - position) by omega, mul_add_mod_of_lt (by omega)] at isRest
    omega
  have whole : length = best.size := by
    by_contra differ
    rcases cut with ⟨below, atMost, isMaximum | isSet⟩ | ⟨atMost, atEnd⟩ | ⟨isMinimum, behind⟩
    · exact differ isMaximum
    · have ends := run.unset.le_of_set isSet (by omega)
      have isLeast := left (by omega) (by omega)
      omega
    · have isLeast := left (by omega) (by omega)
      omega
    · have above : position < bitmap.bucketsEnd := by
        by_contra above
        exact fits.behind position (not_lt.mp above) (by omega) (by omega)
          (found.unset.mono (by omega))
      by_cases below : min last bitmap.bucketsEnd < position + best.size
      · exact differ (isMinimum.trans (left below above.le).symm)
      · omega
  subst whole
  have isNext : position + best.size = start + (steps + 1) * best.size := by
    rw [succ_mul]
    omega
  have earlier : ∀ other stop, bitmap.MaximalRun minLength other stop →
      other < position + best.size → stop ≤ start ∨ other = start ∧ stop = last := by
    intro other stop otherRun otherBefore
    rcases lt_trichotomy other start with isBefore | rfl | behind
    · exact .inl (otherRun.le_of_lt run isBefore)
    · exact .inr ⟨rfl, run.stop_eq otherRun⟩
    · have beyond := run.le_of_lt otherRun behind
      omega
  refine ⟨rfl, ?_, by simp [isFound], fun _ => ⟨by omega, bestRun, ?_⟩, ?_⟩
  · rcases reaches.lt_or_eq with isInside | atEnd
    · by_cases below : position + best.size < bitmap.bucketsEnd
      · rw [isNext, entries _ (by omega)]
        omega
      · rw [searchStart_of_le (by omega), min_eq_right (by omega)]
    · rw [atEnd]
      exact searchStart_of_run run.toRun
  · intro other stop otherRun otherBefore
    rcases earlier other stop otherRun otherBefore with isBefore | ⟨rfl, rfl⟩
    · exact shortest.2 other stop otherRun isBefore
    · exact isLonger.le
  · intro other stop otherRun otherBefore beyond
    rcases earlier other stop otherRun otherBefore with isBefore | ⟨rfl, rfl⟩
    · omega
    · exact ⟨isFound, shortest, isLonger, steps + 1, isNext⟩

variable (searching : bitmap.Searching minLength position best)

include searching

/-- A run that is not longer than the best one is taken as a whole, or up to
the end of the buckets. -/
theorem Searching.take (run : bitmap.MaximalRun minLength next last)
    (passed : bitmap.NoRange minLength position next) (above : position ≤ next)
    (short : last - next ≤ best.size)
    (located : bitmap.Locates minLength best.size lower (some (next, length))) :
    let best' := if length < best.size || !best.found then ⟨next, length, true⟩ else best
    bitmap.Searching minLength (next + length) best' ∨
      bitmap.Finished minLength (next + length) best' := by
  obtain ⟨found, _, cut⟩ := located
  have long := run.long
  have isLong := found.long
  have reaches := found.unset.le_of_run run.toRun found.inside (by omega)
  have shortest : ∀ start stop, bitmap.MaximalRun minLength start stop →
      start < last → last - next ≤ stop - start := by
    intro start stop other before
    rcases run.cases passed other before with isBefore | rfl
    · cases isFound : best.found with
      | true =>
        have least := (searching.found isFound).2.2 start stop other isBefore
        omega
      | false =>
        have none := (searching.unfound isFound).2 start stop other
        omega
    · rw [run.stop_eq other]
  rcases reaches.lt_or_eq with isCut | rfl
  · have behind : bitmap.bucketsEnd ≤ next + length := by
      rcases cut with ⟨_, _, isMaximum | isSet⟩ | ⟨_, atEnd⟩ | ⟨_, isBehind⟩
      · omega
      · have ends := run.unset.le_of_set isSet (by omega)
        omega
      · exact atEnd.ge
      · exact isBehind.le
    have better : length < best.size := by omega
    simp only [better, decide_true, Bool.true_or, if_true]
    refine .inr ⟨behind, isLong, last, run, fun start stop other => shortest start stop other ?_⟩
    have starts := fits.lt_bucketsEnd pos other
    omega
  left
  have within : ∀ start stop, bitmap.MaximalRun minLength start stop →
      start < next + length → ¬ next + length < stop := by
    intro start stop other before beyond
    rcases run.cases passed other before with isBefore | rfl
    · have ends := other.le_of_lt run (by omega)
      omega
    · have same := run.stop_eq other
      omega
  rw [Nat.add_sub_cancel_left] at shortest
  split
  next better =>
    exact ⟨searchStart_of_run run.toRun, by simp, fun _ => ⟨by dsimp only; omega, run, shortest⟩,
      fun start stop other before beyond => absurd beyond (within start stop other before)⟩
  next same =>
    simp only [Bool.or_eq_true, decide_eq_true_eq, Bool.not_eq_true', not_or,
      Bool.not_eq_false] at same
    obtain ⟨startBefore, bestRun, _⟩ := searching.found same.2
    refine ⟨searchStart_of_run run.toRun, by simp [same.2], fun _ => ⟨by omega, bestRun, ?_⟩,
      fun start stop other before beyond => absurd beyond (within start stop other before)⟩
    intro start stop other before
    have least := shortest start stop other before
    omega

/-- The best run is a shortest one in front of a longer run. -/
theorem Searching.shortestBefore (run : bitmap.MaximalRun minLength next last)
    (passed : bitmap.NoRange minLength position next) (above : position ≤ next)
    (isLonger : best.size < last - next) :
    best.found = true ∧ bitmap.ShortestBefore minLength next best.size := by
  have isFound : best.found = true := by
    by_contra unfound
    obtain ⟨size, none⟩ := searching.unfound (Bool.eq_false_iff.mpr unfound)
    have bounded := fits.first next last run fun start _ before inside unset => by
      obtain ⟨first, stop, isBefore, _, other⟩ := exists_maximalRun inside unset (le_refl _)
      exact passed start ((none first stop other).trans isBefore) before inside unset
    omega
  obtain ⟨startBefore, bestRun, least⟩ := searching.found isFound
  refine ⟨isFound, ⟨best.start, bestRun.le_of_lt run (by omega), bestRun⟩, ?_⟩
  intro start stop other before
  have long := other.long
  rcases run.cases passed other (by omega) with isBefore | rfl
  · exact least start stop other isBefore
  · omega

theorem Searching.step (order : minLength ≤ best.size)
    (isFound : bitmap.findNextRangeOfUnsetBits position minLength
      best.size = some (next, length)) :
    let best' := if length < best.size || !best.found then ⟨next, length, true⟩ else best
    position < next + length ∧ next + length ≤ bitmap.size ∧
      (bitmap.Searching minLength (next + length) best' ∨
        bitmap.Finished minLength (next + length) best') := by
  have located := @findNextRangeOfUnsetBits_locates bitmap _ _ pos order position
  rw [isFound, searching.entry] at located
  have ⟨found, passed, _⟩ := located
  have above := found.above
  have long := found.long
  have inside := found.inside
  have isBefore : position < bitmap.bucketsEnd := by
    by_contra behind
    exact fits.behind next (by omega) (by omega) (by omega) (found.unset.mono (by omega))
  rw [min_eq_left isBefore.le] at passed above
  refine ⟨by omega, inside, ?_⟩
  obtain ⟨first, last, before, reaches, run⟩ :=
    exists_maximalRun inside found.unset (Nat.add_le_add_left long next)
  -- A step through the longer run that starts at `first`.
  have passes : ∀ steps, next = first + steps * best.size → best.found = true →
      bitmap.ShortestBefore minLength first best.size → best.size < last - first →
      bitmap.Searching minLength (next + length)
        (if length < best.size || !best.found then ⟨next, length, true⟩ else best) := by
    intro steps isNext isOld shortest isLonger
    obtain ⟨startBefore, bestRun, _⟩ := searching.found isOld
    obtain ⟨isLength, later⟩ := run.pass fits pos isOld bestRun shortest isLonger (by omega)
      (by omega) isNext located
    simpa [isLength, isOld] using later
  rcases before.lt_or_eq with inFront | rfl
  · have runInside := run.inside
    have isInside : first < position := by
      by_contra behind
      exact passed first (not_lt.mp behind) inFront (by omega) (run.unset.mono run.long)
    obtain rfl : next = position := by
      by_contra differ
      exact passed position (le_refl _) (by omega) (by omega)
        fun index indexAbove indexBelow => run.unset index (by omega) (by omega)
    obtain ⟨isOld, shortest, isLonger, steps, isNext⟩ :=
      searching.within first last run isInside (by omega)
    exact .inl (passes steps isNext isOld shortest isLonger)
  · by_cases short : last - first ≤ best.size
    · exact searching.take fits pos run passed above short located
    · obtain ⟨isOld, shortest⟩ :=
        searching.shortestBefore fits pos run passed above (not_le.mp short)
      exact .inl (passes 0 (by omega) isOld shortest (not_le.mp short))

end

theorem Searching.order (searching : bitmap.Searching minLength position best)
    (small : minLength ≤ maxSize) : minLength ≤ best.size := by
  cases isFound : best.found with
  | true =>
    have long := (searching.found isFound).2.1.long
    omega
  | false => rwa [(searching.unfound isFound).1]

theorem Searching.isBestFit (searching : bitmap.Searching minLength position best)
    (none : bitmap.NoRange minLength position bitmap.size) (pos : 0 < minLength) :
    bitmap.IsBestFit minLength (if best.found then some best.start else .none) := by
  have earlier : ∀ start stop, bitmap.MaximalRun minLength start stop → start < position := by
    intro start stop run
    have long := run.long
    have inside := run.inside
    by_contra behind
    exact none start (by omega) (by omega) (by omega) (run.unset.mono run.long)
  cases isFound : best.found with
  | true =>
    obtain ⟨_, run, shortest⟩ := searching.found isFound
    refine ⟨best.start + best.size, run, fun start stop other => ?_⟩
    rw [Nat.add_sub_cancel_left]
    exact shortest start stop other (earlier start stop other)
  | false =>
    intro start _ _ inside unset
    obtain ⟨first, last, _, _, run⟩ := exists_maximalRun inside unset (le_refl _)
    have before := earlier first last run
    have behind := (searching.unfound isFound).2 first last run
    omega

/-- Nothing is found from the end of the buckets on. -/
theorem Finished.search (finished : bitmap.Finished minLength position best)
    (fits : bitmap.BestFitFits minLength) (pos : 0 < minLength) :
    bitmap.findNextRangeOfUnsetBits position minLength best.size = none := by
  have located := @findNextRangeOfUnsetBits_locates bitmap _ _ pos finished.order position
  rw [searchStart_of_le finished.behind] at located
  cases isResult : bitmap.findNextRangeOfUnsetBits position minLength best.size with
  | none => rfl
  | some range =>
    rw [isResult] at located
    have ⟨found, _⟩ := located
    have long := found.long
    have inside := found.inside
    exact absurd (found.unset.mono (by omega))
      (fits.behind range.1 found.above (by omega) (by omega))

theorem searchBestFit_isBestFit (fits : bitmap.BestFitFits minLength) (pos : 0 < minLength)
    (small : minLength ≤ maxSize) (searching : bitmap.Searching minLength position best ∨
      bitmap.Finished minLength position best)
    (below : position ≤ bitmap.size) (enough : bitmap.size + 1 < iterations + position) :
    ∃ answer, bitmap.searchBestFit minLength iterations position best =
        some answer ∧ bitmap.IsBestFit minLength answer := by
  induction iterations generalizing position best with
  | zero => omega
  | succ iterations ih =>
    rw [searchBestFit]
    rcases searching with searching | finished
    · have order := searching.order small
      split
      next next length isFound =>
        obtain ⟨progress, inside, later⟩ := searching.step fits pos order isFound
        exact ih later inside (by omega)
      next isNone =>
        have located := @findNextRangeOfUnsetBits_locates bitmap _ _ pos order position
        rw [isNone] at located
        exact ⟨_, rfl, searching.isBestFit (NoRange.mono located searchStart_le (le_refl _)) pos⟩
    · rw [finished.search fits pos]
      exact ⟨_, rfl, finished.isBestFit⟩

theorem searching_zero : bitmap.Searching minLength 0 ⟨0, maxSize, false⟩ where
  entry := by
    rw [Nat.zero_min]
    exact eq_zero_of_le_zero searchStart_le
  unfound := fun _ => ⟨rfl, fun start _ _ => zero_le start⟩
  found := nofun
  within := fun start _ _ before => absurd before (not_lt_zero start)

/-- A range of more bits than a size can count is not looked for, and there is
none. -/
theorem BestFitFits.noRange (fits : bitmap.BestFitFits minLength)
    (large : maxSize < minLength) : bitmap.NoRange minLength 0 bitmap.size := by
  intro start _ _
  induction start using Nat.strong_induction_on with
  | _ start ih =>
    intro inside unset
    obtain ⟨first, last, before, _, run⟩ := exists_maximalRun inside unset (le_refl _)
    have bounded := fits.first first last run fun other _ otherBefore =>
      ih other (by omega) (zero_le _) (by omega)
    have long := run.long
    omega

/-- The search for the best fit ends with a shortest run, if there is one, for
runs that it takes as a whole, up to the end of the buckets, or passes over
without a rest. -/
theorem findBestFit_isBestFit (bitmap : Bitmap) {minLength : Nat} (positive : 1 ≤ minLength)
    (fits : bitmap.BestFitFits minLength) :
    ∃ answer, bitmap.findBestFit minLength = some answer ∧ bitmap.IsBestFit minLength answer := by
  by_cases small : minLength ≤ maxSize
  · exact searchBestFit_isBestFit fits positive small (.inl searching_zero) (Nat.zero_le _)
      (by omega)
  · refine ⟨none, ?_, fits.noRange (Nat.lt_of_not_le small)⟩
    rw [findBestFit, searchBestFit, findNextRangeOfUnsetBits, if_pos (Nat.lt_of_not_le small)]
    rfl

/-- A bucket of unset bits is the best fit for two bits, although a longer run
reaches across the end of the buckets. -/
theorem findBestFit_isBestFit_across : ∃ answer,
    findBestFit ⟨.replicate 64 false ++ .replicate 64 true ++ .replicate 65 false⟩ 2 = some answer ∧
    IsBestFit ⟨.replicate 64 false ++ .replicate 64 true ++ .replicate 65 false⟩ 2 answer := by
  generalize isBitmap : (⟨_⟩ : Bitmap) = bitmap
  have size : bitmap.size = 193 := by rw [← isBitmap]; decide +kernel
  have ends : bitmap.bucketsEnd = 192 := by rw [← isBitmap]; decide +kernel
  have bits : ∀ index < 193, bitmap.bitAt index = decide (64 ≤ index ∧ index < 128) := by
    rw [← isBitmap]
    decide +kernel
  have bounds : ∀ start stop, bitmap.MaximalRun 2 start stop →
      start = 0 ∧ stop = 64 ∨ start = 128 ∧ stop = 193 := by
    rintro start stop ⟨⟨inside, unset, isEnd⟩, starts, long⟩
    have first := unset start (le_refl _) (by omega)
    have boundary : start ≤ 64 → stop ≤ 64 := fun before => by
      by_contra beyond
      have isSet := unset 64 before (not_le.mp beyond)
      simp [bits] at isSet
    rw [bits start (by omega)] at first
    rw [bits (start - 1) (by omega)] at starts
    rcases isEnd with isEnd | isSet
    · simp at first starts
      omega
    · rcases Nat.lt_or_ge stop 193 with below | above
      · rw [bits stop below] at isSet
        simp at first starts isSet
        omega
      · simp at first starts
        omega
  refine findBestFit_isBestFit _ (by decide) ⟨?_, ?_, ?_⟩
  · intro start above _ inside
    omega
  · intro start stop run _
    have bounded : 65 ≤ maxSize := by decide
    have isRun := bounds start stop run
    omega
  · rintro start stop length run ⟨⟨other, before, otherRun⟩, _⟩ _
    have isRun := bounds start stop run
    have isOther := bounds other _ otherRun
    obtain ⟨rfl, rfl, rfl⟩ : start = 128 ∧ stop = 193 ∧ length = 64 := by omega
    refine ⟨.inr ?_, fun steps inside => ?_⟩
    · rw [ends]
      decide
    · obtain rfl : steps = 0 := by omega
      rw [← isBitmap]
      decide +kernel

/-- The search of one unset bit does not end.  The best fit for one bit in a
bucket with a run of three and a run of five bits is in the middle of the
second. -/
theorem not_isBestFit_rest :
    (∀ iterations, searchBestFit ⟨[false]⟩ 1 iterations 0 ⟨0, maxSize, false⟩ = none) ∧
    findBestFit ⟨List.replicate 3 false ++ [true] ++
      List.replicate 5 false ++ List.replicate 55 true⟩ 1 = some (some 7) ∧
    ¬ IsBestFit ⟨List.replicate 3 false ++ [true] ++
      List.replicate 5 false ++ List.replicate 55 true⟩ 1 (some 7) := by
  refine ⟨?_, by decide +kernel, ?_⟩
  · have forever : ∀ iterations, searchBestFit ⟨[false]⟩ 1 iterations 1 ⟨0, 1, true⟩ = none := by
      intro iterations
      induction iterations with
      | zero => rfl
      | succ iterations ih =>
        exact ih
    intro iterations
    cases iterations with
    | zero => rfl
    | succ iterations =>
      exact forever iterations
  · rintro ⟨stop, run, _⟩
    rcases run.starts with isZero | isSet
    · cases isZero
    · revert isSet
      decide

end

end Bitmap

end MixUpOS.AK
