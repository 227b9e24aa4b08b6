import MixUpOS.AK.Bitmap

/-!
# What the searches of a bitmap find

A search keeps a run of unset bits that ends at its position.  The invariant
is carried through the bits of a bucket, the buckets and the bits behind
them; the search for the best fit ends because the start moves on.
-/

namespace MixUpOS.AK

open List Nat

namespace Bitmap

section

variable {bit : Nat}

theorem countTrailingZeroes_le : countTrailingZeroes width value ≤ width := by
  unfold countTrailingZeroes
  cases found : (range width).find? value.testBit with
  | none => simp
  | some first =>
    have inside := (find?_range_eq_some.mp found).2.1
    exact le_of_lt (mem_range.mp inside)

theorem testBit_of_lt_countTrailingZeroes (below : bit < countTrailingZeroes width value) :
    value.testBit bit = false := by
  unfold countTrailingZeroes at below
  cases found : (range width).find? value.testBit with
  | none =>
    rw [found] at below
    simpa using find?_range_eq_none.mp found bit below
  | some first =>
    rw [found] at below
    simpa using (find?_range_eq_some.mp found).2.2 bit below

theorem testBit_countTrailingZeroes (small : countTrailingZeroes width value < width) :
    value.testBit (countTrailingZeroes width value) = true := by
  unfold countTrailingZeroes at small ⊢
  cases found : (range width).find? value.testBit with
  | none =>
    rw [found] at small
    exact absurd small (lt_irrefl width)
  | some first => exact (find?_range_eq_some.mp found).1

theorem countTrailingZeroes_le_of_testBit (set : value.testBit bit = true) :
    countTrailingZeroes width value ≤ bit := by
  by_contra above
  have unset := testBit_of_lt_countTrailingZeroes (Nat.lt_of_not_le above)
  rw [set] at unset
  cases unset

theorem countTrailingZeroes_lt (nonzero : value ≠ 0) (small : value < 2 ^ bound) :
    countTrailingZeroes width value < bound := by
  obtain ⟨bit, set⟩ := exists_testBit_of_ne_zero nonzero
  have inside : bit < bound := by
    by_contra outside
    have large : value < 2 ^ bit :=
      Nat.lt_of_lt_of_le small (Nat.pow_le_pow_right (by decide) (Nat.le_of_not_lt outside))
    rw [Nat.testBit_lt_two_pow large] at set
    cases set
  exact lt_of_le_of_lt (countTrailingZeroes_le_of_testBit set) inside

end

section

variable {bitmap : Bitmap} {search : RangeSearch} {minLength maxLength lower position count : Nat}

theorem testBit_bucket {bit : Nat} (inside : bit < bitSize) :
    (bitmap.bucket bucketIndex).testBit bit = bitmap.bitAt (bucketIndex * bitSize + bit) :=
  testBit_ofBits_lt _ _ inside

theorem bucket_lt (bucketIndex : Nat) : bitmap.bucket bucketIndex < 2 ^ bitSize :=
  ofBits_lt_two_pow _

/-- The bits from `start` up to `stop` are unset. -/
def Unset (bitmap : Bitmap) (start stop : Nat) : Prop :=
  ∀ index, start ≤ index → index < stop → bitmap.bitAt index = false

theorem Unset.append (first : bitmap.Unset start middle) (second : bitmap.Unset middle stop) :
    bitmap.Unset start stop := by
  intro index above below
  by_cases inFirst : index < middle
  · exact first index above inFirst
  · exact second index (Nat.le_of_not_lt inFirst) below

theorem unset_one (isUnset : bitmap.bitAt index = false) : bitmap.Unset index (index + 1) := by
  intro other above below
  rwa [le_antisymm (le_of_lt_succ below) above]

theorem Unset.le_of_set (unset : bitmap.Unset start stop) (isSet : bitmap.bitAt index = true)
    (above : start ≤ index) : stop ≤ index := by
  by_contra below
  rw [unset index above (Nat.lt_of_not_le below)] at isSet
  cases isSet

/-- A run that is counted ends at the position of the search. -/
def Tracks (bitmap : Bitmap) (lower position : Nat) (search : RangeSearch) : Prop :=
  0 < search.freeChunks → lower ≤ search.start ∧ search.start + search.freeChunks = position ∧
    bitmap.Unset search.start position

/-- A range that may be returned. -/
structure Found (bitmap : Bitmap) (minLength lower start length : Nat) : Prop where
  above : lower ≤ start
  inside : start + length ≤ bitmap.size
  unset : bitmap.Unset start (start + length)
  long : minLength ≤ length

/-- What a part of the search establishes. -/
def Sound (bitmap : Bitmap) (minLength lower position : Nat) : SearchResult → Prop
  | .next search => bitmap.Tracks lower position search
  | .found start length => bitmap.Found minLength lower start length

/-- No range of unset bits that is long enough starts from `lower` up to
`stop`. -/
def NoRange (bitmap : Bitmap) (minLength lower stop : Nat) : Prop :=
  ∀ start, lower ≤ start → start < stop → start + minLength ≤ bitmap.size →
    ¬ bitmap.Unset start (start + minLength)

/-- A part of the search passes over no range, and a range that it returns
ends in the given way. -/
def Passes (bitmap : Bitmap) (minLength lower position : Nat)
    (ends : Nat → Nat → Prop) : SearchResult → Prop
  | .next search =>
    bitmap.NoRange minLength lower (position - search.freeChunks)
  | .found start length => bitmap.NoRange minLength lower start ∧ ends start length

/-- A range up to a position that has the greatest length or is followed by a
set bit. -/
def Ends (bitmap : Bitmap) (maxLength position start length : Nat) : Prop :=
  start + length ≤ position ∧ length ≤ maxLength ∧
    (length = maxLength ∨ bitmap.bitAt (start + length) = true)

/-- A part of the search is sound and passes over no range. -/
def Searched (bitmap : Bitmap) (minLength maxLength lower position : Nat)
    (result : SearchResult) : Prop :=
  Sound bitmap minLength lower position result ∧
    Passes bitmap minLength lower position (Ends bitmap maxLength position) result

theorem Tracks.reset (search : RangeSearch) : bitmap.Tracks lower position search.reset := by
  intro pos
  exact absurd pos (lt_irrefl 0)

section

variable (searched : bitmap.Searched minLength maxLength lower position (.next search))

include searched

/-- Set bits end a run that is too short. -/
theorem Searched.ones (short : search.freeChunks < minLength) (some : 0 < count)
    (ones : ∀ bit < count, bitmap.bitAt (position + bit) = true) :
    bitmap.Searched minLength maxLength lower (position + count) (.next search.reset) := by
  refine ⟨Tracks.reset search, ?_⟩
  intro start above (below : start < position + count) inside unset
  by_cases before : start < position - search.freeChunks
  · exact searched.2 start above before inside unset
  · have ends := unset.le_of_set (ones (start - position) (by omega)) (by omega)
    omega

theorem Searched.extend (above : lower ≤ position)
    (unset : bitmap.Unset position (position + count)) :
    bitmap.Searched minLength maxLength lower (position + count)
      (.next (search.extend position count)) := by
  constructor
  · intro _
    unfold RangeSearch.extend
    by_cases fresh : search.freeChunks = 0
    · simp only [fresh, if_true, zero_add]
      exact ⟨above, trivial, unset⟩
    · obtain ⟨startAbove, ends, counted⟩ := searched.1 (Nat.pos_of_ne_zero fresh)
      simp only [fresh, if_false]
      exact ⟨startAbove, by omega, counted.append unset⟩
  · change bitmap.NoRange minLength lower (position + count - (search.freeChunks + count))
    rw [Nat.add_sub_add_right]
    exact searched.2

/-- A run that is long enough may be returned up to any length. -/
theorem Searched.found {length : Nat} (inside : position ≤ bitmap.size) (pos : 0 < minLength)
    (long : minLength ≤ length) (counted : length ≤ search.freeChunks) :
    bitmap.Found minLength lower search.start length ∧ bitmap.NoRange minLength lower search.start ∧
      search.start + search.freeChunks = position := by
  obtain ⟨above, ends, unset⟩ := searched.1 (by omega)
  have none : bitmap.NoRange minLength lower (position - search.freeChunks) := searched.2
  rw [← ends, Nat.add_sub_cancel_right] at none
  refine ⟨⟨above, by omega, ?_, long⟩, none, ends⟩
  intro index from_start below
  exact unset index from_start (by omega)

/-- A run in front of a set bit is returned. -/
theorem Searched.report {stop : Nat} (inside : stop ≤ bitmap.size) (before : position ≤ stop)
    (set : bitmap.bitAt position = true) (pos : 0 < minLength) (order : minLength ≤ maxLength)
    (long : minLength ≤ search.freeChunks) :
    bitmap.Searched minLength maxLength lower stop (search.report maxLength) := by
  obtain ⟨found, none, ends⟩ := searched.found (by omega) pos
    (Nat.le_min.mpr ⟨long, order⟩) (Nat.min_le_left _ _)
  refine ⟨found, none, by omega, Nat.min_le_right _ _, ?_⟩
  by_cases cut : maxLength ≤ search.freeChunks
  · exact .inl (min_eq_right cut)
  · rw [min_eq_left (by omega), ends]
    exact .inr set

end

/-- The bits of a bucket that are not viewed yet. -/
structure Views (bitmap : Bitmap) (bucketStart viewedBits bucket : Nat) : Prop where
  viewed : viewedBits ≤ bitSize
  bound : bucket < 2 ^ (bitSize - viewedBits)
  bits : ∀ bit, viewedBits + bit < bitSize →
    bucket.testBit bit = bitmap.bitAt (bucketStart + viewedBits + bit)

section

variable {bucket : Nat} (views : bitmap.Views bucketStart viewedBits bucket)

include views

theorem Views.lt : bucket < 2 ^ bitSize :=
  Nat.lt_of_lt_of_le views.bound (Nat.pow_le_pow_right (by decide) (Nat.sub_le _ _))

theorem Views.shift (inside : viewedBits + count ≤ bitSize) :
    bitmap.Views bucketStart (viewedBits + count) (bucket >>> count) := by
  refine ⟨inside, ?_, ?_⟩
  · rw [shiftRight_eq_div_pow]
    apply Nat.div_lt_of_lt_mul
    rw [← Nat.pow_add]
    have exponent : count + (bitSize - (viewedBits + count)) = bitSize - viewedBits := by
      omega
    rw [exponent]
    exact views.bound
  · intro bit below
    rw [testBit_shiftRight, views.bits (count + bit) (by omega)]
    congr 1
    omega

theorem Views.unset (inside : viewedBits + count ≤ bitSize)
    (zeroes : ∀ bit < count, bucket.testBit bit = false) :
    bitmap.Unset (bucketStart + viewedBits) (bucketStart + viewedBits + count) := by
  intro index above below
  have bits := views.bits (index - (bucketStart + viewedBits)) (by omega)
  rw [zeroes _ (by omega)] at bits
  rw [bits]
  congr 1
  omega

theorem Views.ones :
    viewedBits + countTrailingZeroes bitSize (2 ^ bitSize - (bucket + 1)) ≤ bitSize := by
  have viewed := views.viewed
  by_cases none : viewedBits = 0
  · rw [none, zero_add]
    exact countTrailingZeroes_le
  have unset : bucket.testBit (bitSize - viewedBits) = false := testBit_lt_two_pow views.bound
  have set : (2 ^ bitSize - (bucket + 1)).testBit (bitSize - viewedBits) = true := by
    rw [testBit_two_pow_sub_succ views.lt, unset]
    simp only [Bool.not_false, Bool.and_true, decide_eq_true_eq]
    omega
  have ones : countTrailingZeroes bitSize (2 ^ bitSize - (bucket + 1)) ≤ bitSize - viewedBits :=
    countTrailingZeroes_le_of_testBit set
  omega

theorem Views.set : ∀ bit < countTrailingZeroes bitSize (2 ^ bitSize - (bucket + 1)),
    bitmap.bitAt (bucketStart + viewedBits + bit) = true := by
  intro bit below
  have inside := views.ones
  have zero := testBit_of_lt_countTrailingZeroes below
  rw [testBit_two_pow_sub_succ views.lt, views.bits bit (by omega)] at zero
  simpa [(by omega : bit < bitSize)] using zero

end

theorem countTrailingOnes_pos {bucket : Nat} (bound : bucket < 2 ^ bitSize)
    (set : bucket.testBit 0 = true) :
    0 < countTrailingZeroes bitSize (2 ^ bitSize - (bucket + 1)) := by
  by_contra none
  have zero : countTrailingZeroes bitSize (2 ^ bitSize - (bucket + 1)) = 0 :=
    Nat.eq_zero_of_not_pos none
  have small : countTrailingZeroes bitSize (2 ^ bitSize - (bucket + 1)) < bitSize := by
    rw [zero]
    decide
  have lowest := testBit_countTrailingZeroes small
  rw [zero, testBit_two_pow_sub_succ bound, set] at lowest
  simp at lowest

/-- Where the scan of a bucket begins: an empty one is taken as a whole. -/
def bucketEntry (bitmap : Bitmap) (bucketIndex startBucketBit : Nat) : Nat :=
  bucketIndex * bitSize +
    if bitmap.bucket bucketIndex = 0 then 0 else startBucketBit

/-- Behind the last bucket a range is returned as soon as it is long
enough. -/
def PassesTrailing (bitmap : Bitmap) (minLength lower position : Nat) : SearchResult → Prop
  | .next _ => bitmap.NoRange minLength lower bitmap.size
  | .found start length => bitmap.Found minLength lower start length ∧
      bitmap.NoRange minLength lower start ∧ length = minLength ∧
      position < start + length

theorem PassesTrailing.of_next
    (passes : bitmap.PassesTrailing minLength lower (position + 1) result) :
    bitmap.PassesTrailing minLength lower position result := by
  cases result with
  | next search => exact passes
  | found start length =>
    obtain ⟨found, none, isMinimum, behind⟩ := passes
    exact ⟨found, none, isMinimum, by omega⟩

section

variable (pos : 0 < minLength) (order : minLength ≤ maxLength)

include pos order

/-- A bucket is scanned to its end, unless a range is found in it. -/
theorem scanBucket_searched {bucket : Nat} (inside : bucketStart + bitSize ≤ bitmap.size)
    (above : lower ≤ bucketStart + viewedBits) (views : bitmap.Views bucketStart viewedBits bucket)
    (enough : bitSize ≤ iterations + viewedBits)
    (searched : bitmap.Searched minLength maxLength lower (bucketStart + viewedBits)
      (.next search)) :
    bitmap.Searched minLength maxLength lower (bucketStart + bitSize)
      (scanBucket minLength maxLength bucketStart iterations bucket viewedBits search) := by
  induction iterations generalizing bucket viewedBits search with
  | zero =>
    have viewed := views.viewed
    have complete : viewedBits = bitSize := by omega
    rw [complete] at searched
    exact searched
  | succ iterations ih =>
    have viewed := views.viewed
    rw [scanBucket]
    split
    next unfinished =>
      split
      next empty =>
        have last : viewedBits + (bitSize - viewedBits) = bitSize := by omega
        have unset := views.unset (le_of_eq last) (by simp [empty])
        have extended := searched.extend above unset
        rw [add_assoc, last] at extended
        refine ih (by omega) ?_ (by omega) extended
        refine ⟨le_refl _, ?_, ?_⟩
        · rw [empty]
          exact Nat.two_pow_pos _
        · intro bit below
          omega
      next nonzero =>
        have zeroes : viewedBits + countTrailingZeroes bitSize bucket < bitSize := by
          have below : countTrailingZeroes bitSize bucket < bitSize - viewedBits :=
            countTrailingZeroes_lt nonzero views.bound
          omega
        have unset := views.unset (le_of_lt zeroes)
          fun bit below => testBit_of_lt_countTrailingZeroes below
        have extended := searched.extend above unset
        have rest := views.shift (le_of_lt zeroes)
        have lowest : (bucket >>> countTrailingZeroes bitSize bucket).testBit 0 = true := by
          exact testBit_countTrailingZeroes (by omega)
        have progress := countTrailingOnes_pos rest.lt lowest
        have ones := rest.set
        rw [← add_assoc] at ones
        dsimp only
        split
        next long =>
          exact extended.report inside (by omega) (ones 0 progress) pos order long
        next short =>
          have passed := extended.ones (Nat.lt_of_not_le short) progress ones
          rw [Nat.add_assoc bucketStart, Nat.add_assoc bucketStart] at passed
          exact ih (by omega) (rest.shift rest.ones) (by omega) passed
    next finished =>
      have complete : viewedBits = bitSize := by omega
      rw [complete] at searched
      exact searched

theorem searchBucket_searched {bucketIndex : Nat}
    (inside : (bucketIndex + 1) * bitSize ≤ bitmap.size) (offset : startBucketBit < bitSize)
    (above : lower ≤ bitmap.bucketEntry bucketIndex startBucketBit)
    (searched : bitmap.Searched minLength maxLength lower
      (bitmap.bucketEntry bucketIndex startBucketBit) (.next search)) :
    bitmap.Searched minLength maxLength lower ((bucketIndex + 1) * bitSize)
      (bitmap.searchBucket minLength maxLength bucketIndex startBucketBit search) := by
  have next : (bucketIndex + 1) * bitSize = bucketIndex * bitSize + bitSize := succ_mul _ _
  rw [next] at inside ⊢
  have start : bitmap.Views (bucketIndex * bitSize) 0 (bitmap.bucket bucketIndex) := by
    refine ⟨zero_le _, bucket_lt _, ?_⟩
    intro bit below
    exact testBit_bucket (by omega)
  unfold searchBucket
  unfold bucketEntry at above searched
  dsimp only
  split
  next full =>
    rw [if_neg (by rw [full]; decide)] at searched
    have ones : ∀ bit < bitSize - startBucketBit, bitmap.bitAt
        (bucketIndex * bitSize + startBucketBit + bit) = true := by
      intro bit below
      rw [add_assoc, ← testBit_bucket (by omega), full, testBit_two_pow_sub_one, decide_eq_true_eq]
      omega
    split
    next long =>
      exact searched.report inside (by omega) (ones 0 (by omega)) pos order long
    next short =>
      have passed := searched.ones (Nat.lt_of_not_le short) (by omega) ones
      rwa [Nat.add_assoc, Nat.add_sub_cancel' (Nat.le_of_lt offset)] at passed
  · split
    next empty =>
      rw [if_pos empty, add_zero] at above searched
      have unset := start.unset (le_of_eq (zero_add bitSize)) (by simp [empty])
      have extended := searched.extend above unset
      split
      next long =>
        obtain ⟨found, none, ends⟩ := extended.found inside pos order long
        exact ⟨found, none, by omega, le_refl _, .inl rfl⟩
      next => exact extended
    next nonempty =>
      rw [if_neg nonempty] at above searched
      have offsetViews := start.shift (by omega : 0 + startBucketBit ≤ bitSize)
      rw [zero_add] at offsetViews
      exact scanBucket_searched pos order inside above offsetViews (by omega) searched

theorem searchBuckets_searched (some : 0 < remaining)
    (inside : (bucketIndex + remaining) * bitSize ≤ bitmap.size) (offset : startBucketBit < bitSize)
    (above : lower ≤ bitmap.bucketEntry bucketIndex startBucketBit)
    (searched : bitmap.Searched minLength maxLength lower
      (bitmap.bucketEntry bucketIndex startBucketBit) (.next search)) :
    bitmap.Searched minLength maxLength lower ((bucketIndex + remaining) * bitSize)
      (bitmap.searchBuckets minLength maxLength remaining bucketIndex startBucketBit search) := by
  induction remaining generalizing bucketIndex startBucketBit search with
  | zero => omega
  | succ remaining ih =>
    have here : (bucketIndex + 1) * bitSize ≤ bitmap.size :=
      le_trans (mul_le_mul_right _ (by omega)) inside
    have first := searchBucket_searched pos order here offset above searched
    have later : bucketIndex + (remaining + 1) = bucketIndex + 1 + remaining := by
      omega
    have further : (bucketIndex + 1) * bitSize ≤ (bucketIndex + 1 + remaining) * bitSize :=
      mul_le_mul_right _ (by omega)
    rw [later] at inside ⊢
    rw [searchBuckets]
    cases result : bitmap.searchBucket minLength maxLength bucketIndex startBucketBit search with
    | found start length =>
      rw [result] at first
      obtain ⟨found, passed, before, ends⟩ := first
      exact ⟨found, passed, by omega, ends⟩
    | next search =>
      rw [result] at first
      cases remaining with
      | zero => exact first
      | succ remaining =>
        have reached : lower ≤ (bucketIndex + 1) * bitSize := by
          refine le_trans above ?_
          rw [bucketEntry, succ_mul]
          split <;> omega
        have entry : bitmap.bucketEntry (bucketIndex + 1) 0 = (bucketIndex + 1) * bitSize := by
          rw [bucketEntry, ite_self, add_zero]
        rw [← entry] at reached first
        exact ih (by omega) inside (by decide) reached first

theorem searchTrailingBits_passes {remaining : Nat} (ends : position + remaining = bitmap.size)
    (above : lower ≤ position)
    (searched : bitmap.Searched minLength maxLength lower position (.next search))
    (short : search.freeChunks < minLength) :
    bitmap.PassesTrailing minLength lower position
      (bitmap.searchTrailingBits minLength maxLength remaining position search) := by
  induction remaining generalizing position search with
  | zero =>
    intro start startAbove below inside
    exact searched.2 start startAbove (by omega) inside
  | succ remaining ih =>
    rw [searchTrailingBits]
    split
    next set =>
      have passed := searched.ones short Nat.one_pos fun bit below => by
        rwa [Nat.lt_one_iff.mp below]
      exact (ih (by omega) (by omega) passed pos).of_next
    next clear =>
      have extended := searched.extend above (unset_one (Bool.eq_false_iff.mpr clear))
      dsimp only
      split
      next long =>
        have exactly : (search.extend position 1).freeChunks = minLength := le_antisymm short long
        obtain ⟨found, none, runEnds⟩ := extended.found (by omega) pos (le_refl _) long
        rw [RangeSearch.report, exactly, min_eq_left order]
        exact ⟨found, none, rfl, by omega⟩
      next stillShort =>
        exact (ih (by omega) (by omega) extended (Nat.lt_of_not_le stillShort)).of_next

end

/-- The end of the whole buckets. -/
def bucketsEnd (bitmap : Bitmap) : Nat := bitmap.size / bitSize * bitSize

/-- Where the search starts in fact: an empty bucket is taken as a whole, and
so are the bits behind the last bucket. -/
def searchStart (bitmap : Bitmap) («from» : Nat) : Nat :=
  if «from» / bitSize < bitmap.size / bitSize then
    bitmap.bucketEntry («from» / bitSize) («from» % bitSize)
  else bitmap.bucketsEnd

/-- A run that is counted up to the end of the buckets is returned as it is
there, and a range that reaches over that end with the least length. -/
def Locates (bitmap : Bitmap) (minLength maxLength lower : Nat) : Option (Nat × Nat) → Prop
  | none => bitmap.NoRange minLength lower bitmap.size
  | some (start, length) => bitmap.Found minLength lower start length ∧
      bitmap.NoRange minLength lower start ∧
      (Ends bitmap maxLength bitmap.bucketsEnd start length ∨
        length ≤ maxLength ∧ start + length = bitmap.bucketsEnd ∨
        length = minLength ∧ bitmap.bucketsEnd < start + length)

section

variable (pos : 0 < minLength) (order : minLength ≤ maxLength) («from» : Nat)

include pos order

theorem searchBuckets_from (isResult : bitmap.searchBuckets minLength maxLength
      (bitmap.size / bitSize - «from» / bitSize) («from» / bitSize)
      («from» % bitSize) ⟨«from», 0⟩ = result) :
    bitmap.searchStart «from» ≤ bitmap.bucketsEnd ∧
      bitmap.Searched minLength maxLength (bitmap.searchStart «from») bitmap.bucketsEnd result := by
  have nothing (lower : Nat) :
      bitmap.Searched minLength maxLength lower lower (.next ⟨«from», 0⟩) := by
    refine ⟨Tracks.reset ⟨«from», 0⟩, ?_⟩
    intro start above (below : start < lower)
    omega
  subst isResult
  unfold searchStart
  split
  next inside =>
    have offset := mod_lt «from» (by decide : 0 < bitSize)
    have buckets : «from» / bitSize + (bitmap.size / bitSize - «from» / bitSize) =
          bitmap.size / bitSize := by
      omega
    have next : («from» / bitSize + 1) * bitSize ≤ bitmap.bucketsEnd := mul_le_mul_right _ inside
    have entryBelow : bitmap.bucketEntry («from» / bitSize)
        («from» % bitSize) ≤ bitmap.bucketsEnd := by
      rw [succ_mul] at next
      rw [bucketEntry]
      split <;> omega
    have searched := searchBuckets_searched pos order (Nat.sub_pos_of_lt inside)
      (by rw [buckets]; exact Nat.div_mul_le_self _ _) offset (Nat.le_refl _) (nothing _)
    rw [buckets] at searched
    exact ⟨entryBelow, searched⟩
  next outside =>
    rw [Nat.sub_eq_zero_of_le (Nat.le_of_not_lt outside)]
    exact ⟨Nat.le_refl _, nothing _⟩

theorem findNextRangeOfUnsetBits_locates :
    bitmap.Locates minLength maxLength (bitmap.searchStart «from»)
      (bitmap.findNextRangeOfUnsetBits «from» minLength maxLength) := by
  unfold findNextRangeOfUnsetBits
  rw [if_neg (not_lt.mpr order)]
  dsimp only
  cases isResult : bitmap.searchBuckets minLength maxLength
      (bitmap.size / bitSize - «from» / bitSize) («from» / bitSize)
      («from» % bitSize) ⟨«from», 0⟩ with
  | found start length =>
    obtain ⟨_, found, none, ends⟩ := searchBuckets_from pos order «from» isResult
    exact ⟨found, none, .inl ends⟩
  | next search =>
    obtain ⟨above, searched⟩ := searchBuckets_from pos order «from» isResult
    dsimp only
    split
    next short =>
      have trailing := searchTrailingBits_passes pos order
        (div_add_mod' bitmap.size bitSize) above searched short
      split
      next start length isFound =>
        rw [isFound] at trailing
        obtain ⟨found, none, isMinimum, behind⟩ := trailing
        exact ⟨found, none, .inr (.inr ⟨isMinimum, behind⟩)⟩
      next later isNext =>
        rw [isNext] at trailing
        exact trailing
    next long =>
      have isLong : minLength ≤ search.freeChunks := Nat.le_of_not_lt long
      obtain ⟨found, none, ends⟩ := searched.found (Nat.div_mul_le_self _ _) pos
        (Nat.le_min.mpr ⟨isLong, order⟩) (Nat.min_le_left _ _)
      refine ⟨found, none, ?_⟩
      by_cases cut : maxLength ≤ search.freeChunks
      · rw [min_eq_right cut]
        exact .inl ⟨by omega, le_refl _, .inl rfl⟩
      · rw [min_eq_left (by omega)]
        exact .inr (.inl ⟨by omega, ends⟩)

end

theorem findNextRangeOfUnsetBits_sound {length : Nat} (pos : 0 < minLength)
    (below : «from» ≤ bitmap.size)
    (success : bitmap.findNextRangeOfUnsetBits «from» minLength maxLength = some (start, length)) :
    bitmap.Found minLength («from» / bitSize * bitSize) start length := by
  have order : minLength ≤ maxLength := by
    by_contra wrong
    rw [findNextRangeOfUnsetBits, if_pos (Nat.lt_of_not_le wrong)] at success
    cases success
  have located := @findNextRangeOfUnsetBits_locates bitmap _ _ pos order «from»
  rw [success] at located
  refine { located.1 with above := le_trans ?_ located.1.above }
  unfold searchStart bucketEntry
  split
  · exact le_add_right _ _
  · exact Nat.mul_le_mul_right _ (Nat.div_le_div_right below)

theorem Found.least {length : Nat} (found : bitmap.Found minLength lower start length) :
    start + minLength ≤ bitmap.size ∧ bitmap.Unset start (start + minLength) := by
  have inside := found.inside
  have long := found.long
  refine ⟨by omega, ?_⟩
  intro index above below
  exact found.unset index above (by omega)

/-- The best region is empty-handed or a range of unset bits. -/
def BestRegion.Valid (bitmap : Bitmap) (minimumLength : Nat) (best : BestRegion) : Prop :=
  best.found = true → best.start + minimumLength ≤ bitmap.size ∧
    bitmap.Unset best.start (best.start + minimumLength)

/-- The search for the best fit ends, since each range that is found moves
the start on, and its answer is a range of unset bits. -/
theorem searchBestFit_sound {iterations : Nat} (large : bitSize ≤ minimumLength)
    (below : start ≤ bitmap.size) (enough : bitmap.size + 1 < iterations + start)
    (valid : best.Valid bitmap minimumLength) :
    ∃ answer, bitmap.searchBestFit minimumLength iterations start best = some answer ∧
      ∀ first, answer = some first → first + minimumLength ≤ bitmap.size ∧
        bitmap.Unset first (first + minimumLength) := by
  induction iterations generalizing start best with
  | zero => omega
  | succ iterations ih =>
    rw [searchBestFit]
    split
    next next length result =>
      have sound := findNextRangeOfUnsetBits_sound
        (lt_of_lt_of_le (by decide) large) below result
      have progress : start < next + length := by
        have above := sound.above
        have long := sound.long
        have offset := mod_lt start (by decide : 0 < bitSize)
        have split := div_add_mod' start bitSize
        omega
      apply ih sound.inside (by omega)
      split
      · exact fun _ => sound.least
      · exact valid
    next =>
      refine ⟨_, rfl, ?_⟩
      intro first answer
      split at answer
      next found =>
        cases answer
        exact valid found
      next => cases answer

end

section

variable {bitmap : Bitmap} {start len : Nat} {value : Bool}

/-- All bits of a range have one value. -/
def Constant (bitmap : Bitmap) (start len : Nat) (value : Bool) : Prop :=
  ∀ index, start ≤ index → index < start + len → bitmap.bitAt index = value

theorem bitAt_eq_true : bitmap.bitAt index = true ↔ bitmap.get index = some true := by
  unfold bitAt get
  rw [getD_eq_getElem?_getD]
  cases bitmap.bits[index]? with
  | none | some bit => simp

section

variable (inside : start + len ≤ bitmap.size)

include inside

theorem setRange_some (nonempty : 0 < len) (flips : bitmap.Constant start len (!value)) :
    bitmap.setRangeAndVerifyThatAllBitsFlip start len value =
      some (bitmap.withRange start len value) := by
  unfold setRangeAndVerifyThatAllBitsFlip
  have startInside : start < bitmap.size := by omega
  have verified : ((range len).all fun offset =>
      ((start + offset) / 8 != start / 8 && (start + offset) / 8 != (start + len) / 8) ||
        bitmap.bitAt (start + offset) != value) = true := by
    rw [all_eq_true]
    intro offset member
    have below := mem_range.mp member
    rw [flips (start + offset) (by omega) (by omega)]
    cases value <;> simp
  rw [verified]
  simp [startInside, inside]

theorem size_withRange : (bitmap.withRange start len value).size = bitmap.size := by
  unfold size at inside ⊢
  simp only [withRange, length_append, length_take, length_replicate, length_drop]
  omega

theorem bitAt_withRange (index : Nat) : (bitmap.withRange start len value).bitAt index =
      if start ≤ index ∧ index < start + len then value
      else bitmap.bitAt index := by
  unfold size at inside
  have front : (bitmap.bits.take start).length = start := by
    rw [length_take]
    omega
  unfold bitAt withRange
  simp only [getD_eq_getElem?_getD, append_assoc]
  by_cases before : index < start
  · rw [getElem?_append_left (by omega), getElem?_take_of_lt before, if_neg (by omega)]
  rw [getElem?_append_right (by omega)]
  by_cases within : index < start + len
  · rw [getElem?_append_left (by rw [length_replicate]; omega),
      getElem?_replicate_of_lt (by omega), if_pos (by omega)]
    rfl
  · rw [getElem?_append_right (by rw [length_replicate]; omega),
      length_replicate, getElem?_drop, if_neg (by omega)]
    congr 2
    omega

end

theorem count_withRange (bitmap : Bitmap) (start len : Nat) (value : Bool) :
    (bitmap.withRange start len value).bits.count true = (bitmap.bits.take start).count true +
        (if value then len else 0) +
        (bitmap.bits.drop (start + len)).count true := by
  unfold withRange
  rw [count_append, count_append, count_replicate]
  cases value <;> simp

theorem Constant.withRange_eq (constant : bitmap.Constant start len value)
    (inside : start + len ≤ bitmap.size) : bitmap.withRange start len value = bitmap := by
  have bits : ∀ index, (bitmap.withRange start len value).bitAt index = bitmap.bitAt index := by
    intro index
    rw [bitAt_withRange inside]
    split
    next within => exact (constant index within.1 within.2).symm
    next => rfl
  have same : (bitmap.withRange start len value).bits = bitmap.bits := by
    apply ext_getElem (size_withRange inside)
    intro index below otherBelow
    have same := bits index
    unfold bitAt at same
    rwa [getD_eq_getElem _ _ below, getD_eq_getElem _ _ otherBelow] at same
  exact congrArg Bitmap.mk same

theorem count_set (unset : bitmap.Constant start len false) (inside : start + len ≤ bitmap.size) :
    (bitmap.withRange start len true).bits.count true = bitmap.bits.count true + len := by
  have before := count_withRange bitmap start len false
  rw [unset.withRange_eq inside] at before
  rw [count_withRange, before]
  simp only [if_true, Bool.false_eq_true, if_false]
  omega

theorem count_clear (set : bitmap.Constant start len true) (inside : start + len ≤ bitmap.size) :
    (bitmap.withRange start len false).bits.count true + len = bitmap.bits.count true := by
  have before := count_withRange bitmap start len true
  rw [set.withRange_eq inside] at before
  rw [count_withRange, before]
  simp only [if_true, Bool.false_eq_true, if_false]
  omega

end

end Bitmap

end MixUpOS.AK
