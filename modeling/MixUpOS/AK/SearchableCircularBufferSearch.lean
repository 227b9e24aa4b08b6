import MixUpOS.AK.SearchableCircularBufferIndex

/-!
# Matches in a searchable buffer

A match is a piece of the log before the reading head that the bytes behind the
head repeat.
-/

namespace MixUpOS.AK

open Library.RingLogs Library.PatternMatching CircularBuffer.Represents List Nat

namespace SearchableCircularBuffer

/-- The bytes `distance` before the head are those behind the head. -/
def Repeats (log : List UInt8) (consumed distance length : Nat) : Prop :=
  ∀ index < length, log[consumed - distance + index]? = log[consumed + index]?

/-- A match in what can be searched. -/
structure IsMatch (buffer : SearchableCircularBuffer) (log : List UInt8)
    (consumed : Nat) (found : Match) : Prop where
  positive : 0 < found.distance
  near : found.distance ≤ buffer.searchLimit
  short : found.length ≤ found.distance
  unread : found.length ≤ buffer.usedSpace
  repeats : Repeats log consumed found.distance found.length

/-! ## Common prefixes -/

theorem matchingPrefixLength_spec (first second : List UInt8) :
    matchingPrefixLength first second ≤ first.length ∧
      matchingPrefixLength first second ≤ second.length ∧
      (∀ index < matchingPrefixLength first second, first[index]? = second[index]?) ∧
      (matchingPrefixLength first second < first.length →
        matchingPrefixLength first second < second.length →
        first[matchingPrefixLength first second]? ≠
          second[matchingPrefixLength first second]?) := by
  fun_induction matchingPrefixLength first second with
  | case1 head firstRest secondRest ih =>
    obtain ⟨firstFits, secondFits, same, differs⟩ := ih
    refine ⟨succ_le_succ firstFits, succ_le_succ secondFits, ?_, ?_⟩
    · intro index bound
      cases index with
      | zero => rfl
      | succ index => exact same index (lt_of_succ_lt_succ bound)
    · intro firstMore secondMore
      exact differs (lt_of_succ_lt_succ firstMore) (lt_of_succ_lt_succ secondMore)
  | case2 head firstRest other secondRest different => simp [different]
  | case3 first second noHeads =>
    refine ⟨zero_le _, zero_le _, by simp, ?_⟩
    intro firstMore secondMore
    cases first with
    | nil => cases firstMore
    | cons head rest =>
      cases second with
      | nil => cases secondMore
      | cons other others => exact absurd rfl (noHeads head rest other others rfl)

section

variable {buffer : SearchableCircularBuffer} {log : List UInt8} {distance : Nat}
  (models : buffer.toCircularBuffer.Represents 0 log consumed)

include models

theorem searchLimit_add_used :
    buffer.searchLimit + buffer.usedSpace = min buffer.capacity log.length ∧
      consumed + buffer.usedSpace = log.length := by
  have used := models.used
  have bound := models.bound
  rw [searchLimit_eq models]
  omega

theorem nextSearchSpan_eq (near : distance ≤ buffer.searchLimit) :
    buffer.nextSearchSpan distance = some ⟨(consumed - distance) % buffer.capacity,
        min (buffer.capacity - (consumed - distance) % buffer.capacity) distance⟩ := by
  obtain ⟨total, used⟩ := searchLimit_add_used models
  have limit : buffer.searchLimit ≤ buffer.capacity := by omega
  have placeBound := mod_lt (consumed - distance) models.positive
  have place := @back_mod _ _ _ _ models distance 0 (by omega) (by omega)
  rw [add_zero, add_zero] at place
  simp only [nextSearchSpan, limit, near, decide_true, verify_true, some_bind, place]
  exact CircularBuffer.slice_span _ (by omega)

theorem matchLoop_repeats {fuel current : Nat} (near : distance ≤ buffer.searchLimit)
    (unread : maxLength ≤ buffer.usedSpace) (short : current ≤ distance)
    (less : current ≤ maxLength) (repeats : Repeats log consumed distance current)
    (enough : maxLength < fuel + current) :
    ∃ length, matchLoop buffer distance maxLength fuel current = some length ∧
      length ≤ maxLength ∧ length ≤ distance ∧ Repeats log consumed distance length ∧
      (length < maxLength → length < distance → log[consumed - distance + length]? ≠
        log[consumed + length]?) := by
  obtain ⟨total, used⟩ := searchLimit_add_used models
  induction fuel generalizing current with
  | zero => omega
  | succ fuel ih =>
    by_cases done : maxLength ≤ current
    · refine ⟨current, by simp [matchLoop, done], less, short, repeats, ?_⟩
      intro more
      omega
    have haystack := nextSearchSpan_eq models
      (show distance - current ≤ buffer.searchLimit by omega)
    rw [show consumed - (distance - current) = consumed - distance + current by omega] at haystack
    have needle := @nextReadSpan_eq _ _ _ _ models current (by omega)
    obtain ⟨haystackSize, haystackLess, haystackSome, haystackLength, haystackBytes⟩ :=
      @bytes_take _ _ _ _ models (consumed - distance + current) (distance - current)
        (maxLength - current) (by omega) (by omega)
    obtain ⟨needleSize, needleLess, needleSome, needleLength, needleBytes⟩ :=
      @bytes_take _ _ _ _ models (consumed + current) (buffer.usedSpace - current)
        (maxLength - current) (by omega) (by omega)
    have prefixes := matchingPrefixLength_spec
      (slice log (consumed - distance + current) haystackSize)
      (slice log (consumed + current) needleSize)
    simp only [matchLoop, if_neg done, haystack, needle, some_bind,
      Span.bytes_trim, haystackBytes, needleBytes]
    obtain ⟨haystackMost, needleMost, same, differs⟩ := prefixes
    split_ifs with nothing
    · refine ⟨current, rfl, less, short, repeats, ?_⟩
      intro _ more
      have differ := differs (by omega) (by omega)
      rw [nothing, slice_getElem?, slice_getElem?, if_pos (by omega), if_pos (by omega)] at differ
      exact differ
    · refine ih (by omega) (by omega) ?_ (by omega)
      intro index bound
      by_cases old : index < current
      · exact repeats index old
      · obtain ⟨offset, rfl⟩ := Nat.exists_eq_add_of_le (Nat.le_of_not_lt old)
        have equal := same offset (by omega)
        rw [slice_getElem?, slice_getElem?, if_pos (by omega),
          if_pos (by omega), add_assoc, add_assoc] at equal
        exact equal

end

/-! ## The best match -/

/-- The result is a match of a length in the bounds, and there is no longer one
at the distances. -/
structure Finds (buffer : SearchableCircularBuffer) (log : List UInt8)
    (consumed minLength maxLength : Nat) (distances : Nat → Prop)
    (result : Option Match) : Prop where
  sound : ∀ found, result = some found → IsMatch buffer log consumed found ∧
    minLength ≤ found.length ∧ found.length ≤ maxLength
  complete : ∀ other, IsMatch buffer log consumed other → minLength ≤ other.length →
    other.length ≤ maxLength → distances other.distance →
    ∃ found, result = some found ∧ other.length ≤ found.length

theorem longer_spec (best : Option Match) (new : Match) :
    ∃ found, longer best new = some found ∧ (found = new ∨ best = some found) ∧
      new.length ≤ found.length ∧ ∀ old, best = some old → old.length ≤ found.length := by
  cases best with
  | none => exact ⟨new, rfl, .inl rfl, le_refl _, by simp⟩
  | some old =>
    rw [longer]
    split_ifs with isLonger
    · exact ⟨new, rfl, .inl rfl, le_refl _, by rintro _ ⟨⟩; omega⟩
    · exact ⟨old, rfl, .inr rfl, Nat.le_of_not_lt isLonger, by rintro _ ⟨⟩; omega⟩

section

variable {buffer : SearchableCircularBuffer} {log : List UInt8}
  {consumed minLength maxLength : Nat} {others : Nat → Prop} {best result : Option Match}

theorem finds_none (nothing : ∀ other, IsMatch buffer log consumed other →
    minLength ≤ other.length → other.length ≤ maxLength → ¬ distances other.distance) :
    Finds buffer log consumed minLength maxLength distances none where
  sound := by simp
  complete other isMatch long short searched := absurd searched (nothing other isMatch long short)

variable (finds : Finds buffer log consumed minLength maxLength distances best)

include finds

theorem Finds.widen (only : ∀ other, IsMatch buffer log consumed other →
    minLength ≤ other.length → others other.distance → distances other.distance) :
    Finds buffer log consumed minLength maxLength others best where
  sound := finds.sound
  complete other isMatch long short searched :=
    finds.complete other isMatch long short (only other isMatch long searched)

theorem Finds.longer (newFinds : Finds buffer log consumed minLength maxLength others result) :
    Finds buffer log consumed minLength maxLength
      (fun distance => distances distance ∨ others distance) (result.elim best (longer best)) := by
  cases result with
  | none =>
    refine ⟨finds.sound, ?_⟩
    rintro other isMatch long short (old | isNew)
    · exact finds.complete other isMatch long short old
    · obtain ⟨_, never, _⟩ := newFinds.complete other isMatch long short isNew
      cases never
  | some new =>
    obtain ⟨found, isLonger, isOne, newLess, oldLess⟩ := longer_spec best new
    rw [Option.elim_some, isLonger]
    constructor
    · rintro _ ⟨⟩
      rcases isOne with rfl | isBest
      · exact newFinds.sound found rfl
      · exact finds.sound found isBest
    · rintro other isMatch long short (old | isNew)
      · obtain ⟨_, isOld, less⟩ := finds.complete other isMatch long short old
        exact ⟨found, rfl, less.trans (oldLess _ isOld)⟩
      · obtain ⟨_, ⟨⟩, less⟩ := newFinds.complete other isMatch long short isNew
        exact ⟨found, rfl, less.trans newLess⟩

end

theorem findCopyAtDistances_single {buffer : SearchableCircularBuffer} {log : List UInt8}
    {distance maxLength minLength : Nat}
    (models : buffer.toCircularBuffer.Represents 0 log consumed) (pos : 0 < minLength)
    (enough : minLength ≤ min maxLength buffer.usedSpace) :
    ∃ result, buffer.findCopyAtDistances [distance] maxLength minLength = some result ∧
      Finds buffer log consumed minLength maxLength (· = distance) result := by
  simp only [findCopyAtDistances, pos, decide_true, verify_true, Option.bind_eq_bind,
    Option.bind_some, if_neg (not_lt.mpr enough), tryDistances]
  by_cases outside : buffer.searchLimit < distance ∨ distance ≤ 0
  · refine ⟨none, if_pos outside, finds_none ?_⟩
    rintro other isMatch _ _ rfl
    have near := isMatch.near
    have apart := isMatch.positive
    omega
  rw [if_neg outside]
  by_cases close : distance < minLength
  · refine ⟨none, if_pos close, finds_none ?_⟩
    rintro other isMatch long _ rfl
    have short := isMatch.short
    omega
  obtain ⟨length, looked, less, inside, repeats, differs⟩ :=
    @matchLoop_repeats _ _ _ distance models (min maxLength buffer.usedSpace)
      (min maxLength buffer.usedSpace + 1) 0 (by omega) (by omega) (by omega) (by omega)
      (fun _ bound => by cases bound) (by omega)
  have covered : ∀ other, IsMatch buffer log consumed other → other.length ≤ maxLength →
      other.distance = distance → other.length ≤ length := by
    rintro other isMatch otherLess rfl
    have otherShort := isMatch.short
    have otherUnread := isMatch.unread
    by_contra longer
    exact differs (by omega) (by omega) (isMatch.repeats length (by omega))
  rw [looked, Option.bind_some]
  split_ifs with few
  · refine ⟨none, rfl, finds_none ?_⟩
    intro other isMatch long short same
    have bound := covered other isMatch short same
    omega
  · refine ⟨some ⟨distance, length⟩, rfl, ?_, ?_⟩
    · rintro found ⟨⟩
      exact ⟨⟨by simp only; omega, by simp only; omega, inside, by simp only; omega, repeats⟩,
        Nat.le_of_not_lt few, by simp only; omega⟩
    · intro other isMatch _ short same
      exact ⟨_, rfl, covered other isMatch short same⟩

/-! ## The search by hashes -/

section

variable {buffer : SearchableCircularBuffer} {log : List UInt8} {consumed : Nat}

theorem mustReadWithSeekback_eq (models : buffer.toCircularBuffer.Represents 0 log consumed)
    {size distance : Nat} (near : distance ≤ buffer.seekbackLimit) (less : size ≤ distance) :
    buffer.mustReadWithSeekback size distance = some (slice log (log.length - distance) size) := by
  have inLog := models.seekbackLimit_le_length
  have read := models.readWithSeekback near size
  rw [min_eq_left less] at read
  have length := @slice_length _ (log.length - distance) size log (by omega)
  simp [mustReadWithSeekback, read, length]

/-- A match of a chunk starts at an indexed chunk with the hash of the next one. -/
theorem IsMatch.hashed {found : Match} (isMatch : IsMatch buffer log consumed found)
    (indexed : Indexed buffer log consumed) (long : hashChunkSize ≤ found.length) :
    found.distance ≤ consumed ∧ consumed - found.distance < buffer.hashHead ∧
      chunkHash log (consumed - found.distance) = chunkHash log consumed := by
  obtain ⟨total, used⟩ := searchLimit_add_used indexed.models
  have near := isMatch.near
  have short := isMatch.short
  refine ⟨by omega, indexed.complete _ (by omega) (by omega), ?_⟩
  rw [chunkHash]
  congr 1
  apply ext_getElem?
  intro index
  rw [slice_getElem?, slice_getElem?]
  split_ifs with bound
  · exact isMatch.repeats index (by omega)
  · rfl

/-- No chunk with the hash of the next one has been overwritten. -/
def Fresh (buffer : SearchableCircularBuffer) (log : List UInt8) (consumed : Nat) : Prop :=
  ∀ offset < buffer.hashHead, offset + buffer.capacity < log.length →
    chunkHash log offset ≠ chunkHash log consumed

theorem chainLoop_finds {fuel offset : Nat} {best : Option Match}
    (indexed : Indexed buffer log consumed) (fresh : Fresh buffer log consumed)
    (long : hashChunkSize ≤ maxLength) (unread : maxLength ≤ buffer.usedSpace)
    (inside : offset < buffer.hashHead) (sameHash : chunkHash log offset = chunkHash log consumed)
    (enough : offset < fuel) (finds : Finds buffer log consumed hashChunkSize maxLength
      (fun distance => offset < consumed - distance) best) :
    ∃ result, chainLoop buffer (chunkHash log consumed) maxLength fuel
        previous offset best = some (result, buffer) ∧
      Finds buffer log consumed hashChunkSize maxLength (fun _ => True) result := by
  have models := indexed.models
  obtain ⟨total, used⟩ := searchLimit_add_used models
  induction fuel generalizing offset previous best with
  | zero => cases enough
  | succ fuel ih =>
    obtain ⟨insideCapacity, insideConsumed⟩ := indexed.inside (by omega)
    have recent : log.length ≤ offset + buffer.capacity := by
      by_contra stale
      exact fresh offset inside (by omega) sameHash
    have isThree : hashChunkSize = 3 := rfl
    have searchOffset : (buffer.capacity + buffer.readingHead - offset) %
        buffer.capacity = consumed - offset := by
      have place := @back_mod _ _ _ _ models offset 0 (by omega) (by omega)
      rw [add_zero] at place
      rw [place]
      exact mod_eq_of_lt (by omega)
    have chunk := @mustReadWithSeekback_eq _ _ _ models hashChunkSize
      (consumed - offset + buffer.usedSpace) (by rw [models.seekback]; omega) (by omega)
    rw [show log.length - (consumed - offset + buffer.usedSpace) = offset by omega] at chunk
    have sameChunk : stringHash (slice log offset hashChunkSize) =
        chunkHash log consumed := sameHash
    obtain ⟨newMatch, looked, newFinds⟩ :=
      @findCopyAtDistances_single _ _ _ (consumed - offset) maxLength hashChunkSize models
        (by decide) (by omega)
    simp only [chainLoop, searchOffset, chunk, some_bind, sameChunk,
      ne_eq, not_true_eq_false, if_false, looked]
    have better := finds.longer newFinds
    -- The best match after this chunk.
    generalize newMatch.elim best (longer best) = candidate at better
    split_ifs with enoughFound
    · refine ⟨candidate, rfl, better.sound, ?_⟩
      intro other _ _ short _
      cases candidate with
      | none => cases enoughFound.2
      | some found => exact ⟨found, rfl, short.trans (of_decide_eq_true enoughFound.2)⟩
    · rw [indexed.chained.chains offset inside, sameHash]
      cases next : latest log (chunkHash log consumed) offset with
      | none =>
        refine ⟨candidate, rfl, better.widen ?_⟩
        intro other isMatch otherLong _
        obtain ⟨back, _, otherHash⟩ := isMatch.hashed indexed otherLong
        by_contra unsearched
        exact latest_eq_none next _ (by omega) otherHash
      | some older =>
        obtain ⟨olderLess, olderHash, between⟩ := latest_eq_some next
        refine ih (by omega) olderHash (by omega) (better.widen ?_)
        intro other isMatch otherLong newer
        obtain ⟨back, _, otherHash⟩ := isMatch.hashed indexed otherLong
        by_contra unsearched
        exact between _ (by omega) newer otherHash

/-- The search by hashes finds a match of three or more bytes if there is
one. -/
theorem findByHash_finds (indexed : Indexed buffer log consumed)
    (fresh : hashChunkSize ≤ maxLength → Fresh buffer log consumed)
    (unread : maxLength ≤ buffer.usedSpace) :
    ∃ result, buffer.findByHash (slice log consumed (min hashChunkSize maxLength))
        maxLength = some (result, buffer) ∧
      Finds buffer log consumed hashChunkSize maxLength (fun _ => True) result := by
  have used := indexed.models.used
  have length := @slice_length _ consumed (min hashChunkSize maxLength) log (by omega)
  by_cases long : hashChunkSize ≤ maxLength
  · rw [min_eq_left long] at length ⊢
    have isHash : stringHash (slice log consumed hashChunkSize) = chunkHash log consumed := rfl
    rw [findByHash, length, isHash, indexed.chained.locations]
    cases found : latest log (chunkHash log consumed) buffer.hashHead with
    | none =>
      refine ⟨none, rfl, finds_none ?_⟩
      intro other isMatch otherLong _ _
      obtain ⟨_, inside, sameHash⟩ := isMatch.hashed indexed otherLong
      exact latest_eq_none found _ inside sameHash
    | some start =>
      obtain ⟨inside, sameHash, last⟩ := latest_eq_some found
      obtain ⟨insideCapacity, _⟩ := indexed.inside (by omega)
      refine chainLoop_finds indexed (fresh long) long unread inside sameHash (by omega)
        (finds_none ?_)
      intro other isMatch otherLong _ newer
      obtain ⟨_, otherInside, otherHash⟩ := isMatch.hashed indexed otherLong
      exact last _ otherInside newer otherHash
  · refine ⟨none, ?_, finds_none ?_⟩
    · rw [findByHash, if_neg (by omega)]
    · intro other _ otherLong short
      omega

end

/-! ## The plain search -/

/-- What the spans contain from their end. -/
def spansBackwards (bytes : List UInt8) (spans : List Span) : List UInt8 :=
  backwards (spans.map fun span => span.bytes bytes)

theorem spansBackwards_cons (bytes : List UInt8) (span : Span) (rest : List Span) :
    spansBackwards bytes (span :: rest) =
      (span.bytes bytes).reverse ++ spansBackwards bytes rest := by
  simp [spansBackwards, backwards]

theorem spansBackwards_trimHaystack (count : Nat)
    (valid : ∀ span ∈ spans, span.offset + span.size ≤ bytes.length) :
    spansBackwards bytes (trimHaystack count spans) = (spansBackwards bytes spans).drop count ∧
      (trimHaystack count spans ≠ [] → count ≤ (spansBackwards bytes spans).length) ∧
      ∀ span ∈ trimHaystack count spans, span.offset + span.size ≤ bytes.length := by
  induction spans generalizing count with
  | nil =>
    exact ⟨by simp [trimHaystack, spansBackwards, backwards],
      fun some => absurd rfl some, by simp [trimHaystack]⟩
  | cons span rest ih =>
    have inside := valid span mem_cons_self
    have length : (span.bytes bytes).length = span.size := slice_length inside
    by_cases done : count = 0
    · rw [done]
      exact ⟨rfl, fun _ => zero_le _, valid⟩
    rw [trimHaystack, if_neg done]
    by_cases whole : span.size ≤ count
    · obtain ⟨text, less, restValid⟩ := ih (count - span.size)
        (forall_mem_cons.mp valid).2
      rw [if_pos whole, spansBackwards_cons]
      refine ⟨?_, ?_, restValid⟩
      · have gone : (span.bytes bytes).reverse.drop count = [] := by
          apply drop_eq_nil_of_le
          rw [length_reverse, length]
          exact whole
        rw [text, drop_append, length_reverse, length, gone, nil_append]
      · intro some
        have bound := less some
        rw [length_append, length_reverse]
        omega
    · rw [if_neg whole, spansBackwards_cons, spansBackwards_cons]
      refine ⟨?_, ?_, ?_⟩
      · rw [drop_append, length_reverse, drop_reverse, length, show count - span.size = 0 by omega,
          drop_zero]
        rw [Span.bytes, Span.bytes, take_slice, min_eq_left (sub_le _ _)]
      · intro _
        rw [length_append, length_reverse]
        omega
      · intro other member
        rcases mem_cons.mp member with rfl | isRest
        · simp only
          omega
        · exact valid other (mem_cons_of_mem _ isRest)

/-- The spans contain a piece of the log that ends before the head. -/
structure Haystack (buffer : SearchableCircularBuffer) (log : List UInt8)
    (consumed fromEnd size : Nat) (spans : List Span) : Prop where
  valid : ∀ span ∈ spans, span.offset + span.size ≤ buffer.buffer.length
  near : fromEnd + size = buffer.searchLimit
  text : spansBackwards buffer.buffer spans = (slice log (consumed - fromEnd - size) size).reverse

section

variable {log : List UInt8} {fromEnd size : Nat}

theorem Haystack.trim (haystack : Haystack buffer log consumed fromEnd size
    spans) (models : buffer.toCircularBuffer.Represents 0 log consumed)
    {count : Nat} (some : trimHaystack count spans ≠ []) :
    count ≤ size ∧ Haystack buffer log consumed (fromEnd + count)
      (size - count) (trimHaystack count spans) := by
  obtain ⟨total, used⟩ := searchLimit_add_used models
  have near := haystack.near
  have length := @slice_length _ (consumed - fromEnd - size) size log (by omega)
  obtain ⟨text, less, valid⟩ := spansBackwards_trimHaystack count haystack.valid
  have bound := less some
  rw [haystack.text, length_reverse, length] at bound
  refine ⟨bound, valid, by omega, ?_⟩
  rw [text, haystack.text, drop_reverse, length, take_slice, min_eq_left (sub_le _ _)]
  congr 2
  omega

theorem Haystack.repeats (haystack : Haystack buffer log consumed fromEnd size spans)
    (models : buffer.toCircularBuffer.Represents 0 log consumed)
    {count distance : Nat} (pos : 0 < count)
    (inLog : consumed + count ≤ log.length) (less : count ≤ distance)
    (occurs : Occurs (slice log consumed count).reverse
      (spansBackwards buffer.buffer spans) (distance - count)) :
    distance ≤ size ∧ Repeats log consumed (fromEnd + distance) count := by
  obtain ⟨total, used⟩ := searchLimit_add_used models
  have near := haystack.near
  have length := @slice_length _ (consumed - fromEnd - size) size log (by omega)
  have needleLength := @slice_length _ consumed count log inLog
  have agrees : ∀ index < count, (slice log (consumed - fromEnd - size) size).reverse[
        distance - 1 - index]? = log[consumed + index]? := by
    intro index bound
    have same := occurs (count - 1 - index) (by rw [length_reverse]; omega)
    rw [haystack.text] at same
    rw [show distance - count + (count - 1 - index) = distance - 1 - index by omega] at same
    rw [same, getElem?_reverse (by omega), needleLength, slice_getElem?,
      show count - 1 - (count - 1 - index) = index by omega, if_pos bound]
  have inside : distance ≤ size := by
    by_contra far
    have same := agrees 0 pos
    rw [getElem?_eq_none (by rw [length_reverse]; omega), getElem?_eq_getElem (by omega)] at same
    cases same
  refine ⟨inside, ?_⟩
  intro index bound
  have same := agrees index bound
  rw [getElem?_reverse (by omega), slice_getElem?, if_pos (by omega)] at same
  rw [← same]
  congr 1
  omega

/-- The plain search finds matches, none of which is worse than the first. -/
theorem memoryLoop_finds {fuel fromEnd size : Nat} {spans : List Span} {best : Option Match}
    {distances : Nat → Prop} (models : buffer.toCircularBuffer.Represents 0 log consumed)
    (pos : 0 < minLength) (enough : minLength ≤ maxLength)
    (unread : maxLength ≤ buffer.usedSpace) (chunk : minLength ≤ hashChunkSize)
    (haystack : Haystack buffer log consumed fromEnd size spans) (few : size < fuel)
    (finds : Finds buffer log consumed minLength maxLength distances best) :
    ∃ result, memoryLoop buffer (slice log consumed minLength)
        maxLength minLength fuel spans fromEnd best = some result ∧
      Finds buffer log consumed minLength maxLength distances result := by
  have used := models.used
  have isThree : hashChunkSize = 3 := rfl
  have needleLength := @slice_length _ consumed minLength log (by omega)
  have notEmpty : slice log consumed minLength ≠ [] := by
    intro isEmpty
    rw [isEmpty] at needleLength
    exact absurd needleLength (by simp; omega)
  induction fuel generalizing fromEnd size spans best with
  | zero => cases few
  | succ fuel ih =>
    obtain ⟨answer, searched, found⟩ := (memmemReverse_found notEmpty
      (spans.map fun span => span.bytes buffer.buffer)).1 (MemMem.indexFits_of_short
        (by rw [length_reverse]; omega))
    cases answer with
    | none =>
      refine ⟨best, ?_, finds⟩
      simp only [memoryLoop, searched, some_bind]
      rfl
    | some distance =>
      obtain ⟨less, occurs, _⟩ := found
      rw [length_reverse, needleLength] at less occurs
      obtain ⟨inside, repeats⟩ := haystack.repeats models pos (by omega) less occurs
      have near := haystack.near
      obtain ⟨newMatch, looked, newFinds⟩ :=
        @findCopyAtDistances_single _ _ _ (fromEnd + distance) (min maxLength hashChunkSize)
          minLength models pos (by omega)
      obtain ⟨new, rfl, _⟩ := newFinds.complete ⟨fromEnd + distance, minLength⟩
        ⟨by simp only; omega, by simp only; omega, by simp only; omega, by simp only; omega,
          repeats⟩ (le_refl _) (by simp only; omega) rfl
      obtain ⟨isMatch, low, high⟩ := newFinds.sound new rfl
      have better : Finds buffer log consumed minLength maxLength distances
          (longer best new) := by
        refine (@Finds.longer _ _ _ _ _ _ (fun _ => False) _ (some new) finds ⟨?_, by simp⟩).widen
          fun _ _ _ => .inl
        rintro _ ⟨⟩
        exact ⟨isMatch, low, high.trans (min_le_left _ _)⟩
      simp only [memoryLoop, searched, looked, some_bind]
      split_ifs with stops isLast
      · exact ⟨_, rfl, better⟩
      · exact ⟨_, rfl, better⟩
      · obtain ⟨bound, trimmed⟩ := haystack.trim models
          fun isEmpty => isLast (by rw [isEmpty]; rfl)
        exact ih trimmed (by omega) better

theorem searchHaystack_haystack (models : buffer.toCircularBuffer.Represents 0 log consumed) :
    ∃ spans, buffer.searchHaystack = some spans ∧
      Haystack buffer log consumed 0 buffer.searchLimit spans := by
  obtain ⟨total, used⟩ := searchLimit_add_used models
  have older := nextSearchSpan_eq models (le_refl _)
  have placeBound := mod_lt (consumed - buffer.searchLimit) models.positive
  generalize place : (consumed - buffer.searchLimit) % buffer.capacity = offset at older
  have isCapacity : buffer.buffer.length = buffer.capacity := rfl
  by_cases wraps : buffer.capacity - offset < buffer.searchLimit
  · -- The bytes go on at the start of the buffer.
    rw [min_eq_left (le_of_lt wraps)] at older
    have olderBytes := @bytes_eq _ _ _ _ models
      (consumed - buffer.searchLimit) (buffer.capacity - offset)
      (by omega) (by omega) (by omega)
    rw [place] at olderBytes
    generalize isRest : buffer.searchLimit - (buffer.capacity - offset) = rest
    have continued : consumed - rest =
        consumed - buffer.searchLimit + (buffer.capacity - offset) := by omega
    have newer := @nextSearchSpan_eq _ _ _ rest models (by omega)
    have start : (consumed - rest) % buffer.capacity = 0 := by
      rw [continued, add_mod, place, add_mod_mod,
        show offset + (buffer.capacity - offset) = buffer.capacity by omega, mod_self]
    have newerBytes := @bytes_eq _ _ _ _ models (consumed - rest) rest
      (by omega) (by omega) (by omega)
    rw [start] at newer newerBytes
    rw [Nat.min_eq_right (by omega)] at newer
    refine ⟨[⟨0, rest⟩, ⟨offset, buffer.capacity - offset⟩], ?_, ?_, Nat.zero_add _, ?_⟩
    · simp only [searchHaystack, older, some_bind, if_pos wraps, isRest, newer]
      rfl
    · simp only [forall_mem_cons, isCapacity]
      exact ⟨by omega, by omega, forall_mem_nil _⟩
    · rw [spansBackwards_cons, spansBackwards_cons, newerBytes, olderBytes,
        show spansBackwards buffer.buffer [] = [] from rfl, append_nil,
        ← reverse_append, continued, slice_append_slice]
      congr 2
      omega
  · rw [min_eq_right (by omega)] at older
    have bytes := @bytes_eq _ _ _ _ models (consumed - buffer.searchLimit) buffer.searchLimit
      (by omega) (by omega) (by omega)
    rw [place] at bytes
    refine ⟨[⟨offset, buffer.searchLimit⟩], ?_, ?_, zero_add _, ?_⟩
    · simp only [searchHaystack, older, some_bind, if_neg (lt_irrefl _)]
      rfl
    · simp only [forall_mem_singleton, isCapacity]
      omega
    · rw [spansBackwards_cons, bytes,
        show spansBackwards buffer.buffer [] = [] from rfl, append_nil,
        Nat.sub_zero]

/-- The search returns.  What it finds is a match, and a match of a chunk or
more is found if there is one. -/
theorem findCopyInSeekback_found (indexed : Indexed buffer log consumed)
    (pos : 0 < minLength) (short : minLength ≤ hashChunkSize)
    (fresh : hashChunkSize ≤ min maxLength buffer.usedSpace → Fresh buffer log consumed) :
    ∃ result, buffer.findCopyInSeekback maxLength minLength = some (result, buffer) ∧
      (∀ found, result = some found → IsMatch buffer log consumed found ∧
        minLength ≤ found.length ∧ found.length ≤ maxLength) ∧
      ∀ other, IsMatch buffer log consumed other → hashChunkSize ≤ other.length →
        other.length ≤ maxLength → ∃ found, result = some found ∧ other.length ≤ found.length := by
  have models := indexed.models
  obtain ⟨total, used⟩ := searchLimit_add_used models
  simp only [findCopyInSeekback, pos, decide_true, verify_true, Option.bind_eq_bind,
    Option.bind_some]
  by_cases few : min maxLength buffer.usedSpace < minLength
  · refine ⟨none, if_pos few, by simp, ?_⟩
    intro other isMatch long less
    have unread := isMatch.unread
    omega
  · rw [if_neg few]
    generalize isMaximum : min maxLength buffer.usedSpace = maximum at fresh
    have needle := @mustReadWithSeekback_eq _ _ _ models
      (min hashChunkSize maximum) buffer.usedSpace
      (by rw [models.seekback]; omega) (by omega)
    rw [show log.length - buffer.usedSpace = consumed by omega] at needle
    obtain ⟨byHash, hashed, finds⟩ :=
      findByHash_finds indexed fresh (show maximum ≤ buffer.usedSpace by omega)
    have complete : ∀ other, IsMatch buffer log consumed other → hashChunkSize ≤ other.length →
        other.length ≤ maxLength → ∃ found, byHash = some found ∧
          other.length ≤ found.length := by
      intro other isMatch long less
      have unread := isMatch.unread
      exact finds.complete other isMatch long (by omega) trivial
    simp only [needle, hashed, Option.bind_some]
    cases byHash with
    | some best =>
      refine ⟨some best, rfl, ?_, complete⟩
      intro found isFound
      obtain ⟨isMatch, low, high⟩ := finds.sound found isFound
      exact ⟨isMatch, by omega, by omega⟩
    | none =>
      obtain ⟨spans, collected, haystack⟩ := searchHaystack_haystack models
      obtain ⟨result, searched, resultFinds⟩ := memoryLoop_finds models pos
        (show minLength ≤ maximum by omega) (by omega) short haystack (lt_succ_self _)
        (@finds_none _ _ _ _ _ (fun _ => False) fun _ _ _ _ => id)
      have isNeedle : (slice log consumed (min hashChunkSize maximum)).take minLength =
            slice log consumed minLength := by
        rw [take_slice, min_eq_left (by omega)]
      -- A match of a whole chunk would have been found by its hash.
      have isShort : verify (result.elim true fun found =>
          decide (found.length < hashChunkSize)) = some () := by
        cases result with
        | none => rfl
        | some found =>
          obtain ⟨isMatch, _, high⟩ := resultFinds.sound found rfl
          have less : found.length < hashChunkSize := by
            by_contra long
            obtain ⟨_, never, _⟩ := complete found isMatch (by omega) (by omega)
            cases never
          simp [less]
      refine ⟨result, ?_, ?_, ?_⟩
      · simp only [findInMemory, if_pos short, collected, isNeedle, searched, isShort, some_bind]
        rfl
      · intro found isFound
        obtain ⟨isMatch, low, high⟩ := resultFinds.sound found isFound
        exact ⟨isMatch, low, by omega⟩
      · intro other isMatch long less
        obtain ⟨_, never, _⟩ := complete other isMatch long less
        cases never

end

end SearchableCircularBuffer

end MixUpOS.AK
