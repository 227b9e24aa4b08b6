import MixUpOS.AK.Builtins
import MixUpOS.Library.PatternMatching

/-!
# Searching memory

`memmem` looks for the first occurrence of a needle in a haystack that is in
several chunks, and `memmem_reverse` for the last one: it reads needle and
haystack from their ends, and the chunk that is read first comes first.

`none` is an index out of range, an `int` that overflows or a loop without an
end; the outer `Option` of a result is this one.
-/

namespace MixUpOS.AK

open Library.PatternMatching List

/-- `bytes[index]`. -/
def fromStart (bytes : List UInt8) (index : Nat) : Option UInt8 := bytes[index]?

/-- `bytes[bytes.size() - 1 - index]`. -/
def fromEnd (bytes : List UInt8) (index : Nat) : Option UInt8 :=
  if index < bytes.length then bytes[bytes.length - 1 - index]? else none

namespace MemMem

/-- `++` on an `int`. -/
def nextInt (value : Int) : Option Nat :=
  if value + 1 < 2 ^ 31 then some (value + 1).toNat else none

section

variable (element : List UInt8 → Nat → Option UInt8) (needle : List UInt8)

/-- The candidates are tried until one goes on with the element in the
needle. -/
def fallBack (table : List Int) (position : Nat) : Nat → Int → Option Int
  | 0, _ => none
  | fuel + 1, candidate => do
      let candidate ← table[candidate.toNat]?
      if candidate < 0 then return candidate
      else
        let byte ← element needle position
        let other ← element needle candidate.toNat
        if other ≠ byte then fallBack table position fuel candidate
        else return candidate

/-- The next entry of the table, and the candidate that it leaves. -/
def tableEntry (table : List Int) (candidate : Nat) : Option (Int × Int) := do
  let byte ← element needle table.length
  let other ← element needle candidate
  if byte = other then
    let entry ← table[candidate]?
    return (entry, candidate)
  else
    let later ← fallBack element needle (table ++ [(candidate : Int)]) table.length
      (needle.length + 1) candidate
    return (candidate, later)

/-- The entries of the table are made one after the other. -/
def tableLoop : Nat → List Int → Nat → Option (List Int)
  | 0, _, _ => none
  | fuel + 1, table, candidate =>
    if needle.length ≤ table.length then some table
    else do
      let (entry, candidate) ← tableEntry element needle table candidate
      let candidate ← nextInt candidate
      tableLoop fuel (table ++ [entry]) candidate

def prepareKmpPartialTable : Option (List Int) := tableLoop element needle needle.length [-1] 0

def searchLoop (table : List Int) : Nat → List (List UInt8) → Nat → Nat → Nat → Option (Option Nat)
  | 0, _, _, _, _ => none
  | _ + 1, [], _, _, _ => some none
  | fuel + 1, chunk :: rest, currentHaystackIndex, totalHaystackIndex, needleIndex =>
    if chunk.length ≤ currentHaystackIndex then
      searchLoop table fuel rest 0 totalHaystackIndex needleIndex
    else do
      let byte ← element needle needleIndex
      let other ← element chunk currentHaystackIndex
      if byte = other then
        let needleIndex ← nextInt needleIndex
        if needleIndex = needle.length then return some (totalHaystackIndex + 1)
        else
          searchLoop table fuel (chunk :: rest)
            (currentHaystackIndex + 1) (totalHaystackIndex + 1) needleIndex
      else
        let entry ← table[needleIndex]?
        if entry < 0 then
          searchLoop table fuel (chunk :: rest) (currentHaystackIndex + 1) (totalHaystackIndex + 1)
            (entry + 1).toNat
        else
          searchLoop table fuel (chunk :: rest) currentHaystackIndex totalHaystackIndex entry.toNat

/-- How much of the haystack is read until the end of the needle. -/
def search (haystack : List (List UInt8)) : Option (Option Nat) := do
  let table ← prepareKmpPartialTable element needle
  searchLoop element needle table (2 * haystack.flatten.length + haystack.length + 1) haystack 0 0 0

end

end MemMem

/-- `memmem` of chunks. -/
def memmem (haystack : List (List UInt8)) (needle : List UInt8) : Option (Option Nat) := do
  let found ← MemMem.search fromStart needle haystack
  return found.map (· - needle.length)

/-- How far before the end of the haystack the last occurrence starts. -/
def memmemReverse (haystack : List (List UInt8)) (needle : List UInt8) : Option (Option Nat) :=
  MemMem.search fromEnd needle haystack

theorem fromEnd_eq (bytes : List UInt8) (index : Nat) :
    fromEnd bytes index = bytes.reverse[index]? := by
  rw [fromEnd]
  split_ifs with inside
  · rw [getElem?_reverse inside]
  · rw [getElem?_eq_none (by simpa using inside)]

/-- A search returns, and its result is as it should be. -/
def Returns (search : Option (Option Nat)) (right : Option Nat → Prop) : Prop :=
  ∃ result, search = some result ∧ right result

/-- The result is as it should be under a condition, and otherwise there is none. -/
def Decides (fits : Prop) (search : Option (Option Nat)) (right : Option Nat → Prop) : Prop :=
  (fits → Returns search right) ∧ (¬ fits → search = none)

namespace MemMem

theorem nextInt_eq (low : -1 ≤ value) :
    nextInt value = if (value + 1).toNat < 2 ^ 31 then some (value + 1).toNat else none := by
  have same : value + 1 < 2 ^ 31 ↔ (value + 1).toNat < 2 ^ 31 := by omega
  rw [nextInt]
  simp

theorem exists_byte {bytes : List UInt8} {index : Nat} (inside : index < bytes.length) :
    ∃ byte, bytes[index]? = some byte :=
  ⟨_, getElem?_eq_getElem inside⟩

variable {pattern : List UInt8} {table : List Int}

/-- The entries that are there are right. -/
def Correct (pattern : List UInt8) (table : List Int) : Prop :=
  ∀ length < table.length, ∃ entry, table[length]? = some entry ∧ FallsBack pattern length entry

/-- The longest border of a prefix. -/
def Longest (pattern : List UInt8) (candidate length : Nat) : Prop :=
  Border pattern candidate length ∧ ∀ first, Border pattern first length → first ≤ candidate

/-- An `int` holds the borders of the prefixes up to a length. -/
def ShortBorders (pattern : List UInt8) (bound : Nat) : Prop :=
  ∀ first length, length ≤ bound → Border pattern first length → first < 2 ^ 31

theorem Correct.concat (correct : Correct pattern table)
    (fallsBack : FallsBack pattern table.length entry) : Correct pattern (table ++ [entry]) := by
  intro length bound
  rw [length_append, length_singleton] at bound
  by_cases old : length < table.length
  · rw [getElem?_append_left old]
    exact correct length old
  · obtain rfl : length = table.length := by omega
    exact ⟨entry, by simp, fallsBack⟩

/-- A border that goes on as the pattern does, and such that no longer one does,
gives the longest border of the next prefix. -/
theorem Longest.succ {length : Nat} (border : Border pattern candidate length)
    (same : pattern[candidate]? = pattern[length]?)
    (longest : ∀ first, Border pattern first length → candidate < first →
      pattern[first]? ≠ pattern[length]?) : Longest pattern (candidate + 1) (length + 1) := by
  refine ⟨Border.succ_iff.mpr ⟨border, same⟩, ?_⟩
  intro first shorter
  cases first with
  | zero => exact Nat.zero_le _
  | succ first =>
    obtain ⟨shorterBorder, shorterSame⟩ := Border.succ_iff.mp shorter
    by_contra longer
    exact longest first shorterBorder (by omega) shorterSame

theorem Longest.zero {length : Nat}
    (none : ∀ first, Border pattern first length → pattern[first]? ≠ pattern[length]?) :
    Longest pattern 0 (length + 1) := by
  refine ⟨Border.zero (Nat.succ_pos _), ?_⟩
  intro first shorter
  cases first with
  | zero => exact Nat.le_refl 0
  | succ first =>
    obtain ⟨border, same⟩ := Border.succ_iff.mp shorter
    exact absurd same (none first border)

section

variable {element : List UInt8 → Nat → Option UInt8} {needle : List UInt8}
  (reads : ∀ index, element needle index = pattern[index]?)

include reads

theorem fallBack_longest {fuel candidate : Nat} (correct : Correct pattern table)
    (inside : position < pattern.length) (bound : candidate < table.length)
    (enough : candidate < fuel) (border : Border pattern candidate position)
    (excluded : ∀ first, Border pattern first position → candidate ≤ first →
      pattern[first]? ≠ pattern[position]?) :
    ∃ later, fallBack element needle table position fuel candidate = some later ∧
      -1 ≤ later ∧ Longest pattern (later + 1).toNat (position + 1) := by
  induction fuel generalizing candidate with
  | zero => cases enough
  | succ fuel ih =>
    obtain ⟨entry, found, fallsBack⟩ := correct candidate bound
    have low := fallsBack.low
    have below : ∀ first, Border pattern first position → entry < first →
        pattern[first]? ≠ pattern[position]? := by
      intro first shorter less
      by_cases small : first < candidate
      · rw [fallsBack.longest first (shorter.of_longer border small) less]
        exact excluded candidate border (Nat.le_refl _)
      · exact excluded first shorter (by omega)
    by_cases negative : entry < 0
    · refine ⟨entry, by simp [fallBack, found, negative], low, ?_⟩
      obtain rfl : entry = -1 := by omega
      exact Longest.zero fun first shorter => below first shorter (by omega)
    · obtain ⟨first, rfl⟩ := Int.eq_ofNat_of_zero_le (by omega : 0 ≤ entry)
      obtain ⟨entryBorder, _⟩ := fallsBack.border (by omega)
      rw [Int.toNat_natCast] at entryBorder
      have shorter := entryBorder.trans border
      have entryLess := entryBorder.1
      have positionLess := shorter.1
      obtain ⟨byte, isByte⟩ := exists_byte inside
      obtain ⟨other, isOther⟩ := @exists_byte pattern first (by omega)
      by_cases same : other = byte
      · refine ⟨first, by simp [fallBack, found, reads, isByte, isOther, same], low, ?_⟩
        refine Longest.succ shorter ?_ fun larger border less =>
          below larger border (by omega)
        rw [isOther, isByte, same]
      · obtain ⟨later, result, longest⟩ := ih (by omega) (by omega) shorter (by
            intro larger border less
            by_cases isFirst : larger = first
            · rw [isFirst, isOther, isByte]
              exact fun equal => same (Option.some.inj equal)
            · exact below larger border (by omega))
        refine ⟨later, ?_, longest⟩
        simp [fallBack, found, reads, isByte, isOther, same, result]

variable (sameLength : pattern.length = needle.length)

include sameLength

theorem tableEntry_correct {candidate : Nat} (correct : Correct pattern table)
    (inside : table.length < pattern.length) (longest : Longest pattern candidate table.length) :
    ∃ entry later, tableEntry element needle table candidate = some (entry, later) ∧
      FallsBack pattern table.length entry ∧ -1 ≤ later ∧
      Longest pattern (later + 1).toNat (table.length + 1) := by
  have smaller := longest.1.1
  obtain ⟨byte, isByte⟩ := exists_byte inside
  obtain ⟨other, isOther⟩ := @exists_byte pattern candidate (by omega)
  by_cases same : byte = other
  · obtain ⟨entry, found, fallsBack⟩ := correct candidate smaller
    have sameByte : pattern[table.length]? = pattern[candidate]? := by
      rw [isByte, isOther, same]
    refine ⟨entry, candidate, by simp [tableEntry, reads, isByte, isOther, same, found],
      FallsBack.of_eq longest.1 longest.2 sameByte fallsBack, by omega, ?_⟩
    refine Longest.succ longest.1 sameByte.symm fun first shorter longer => ?_
    have bound := longest.2 first shorter
    omega
  · have differ : pattern[table.length]? ≠ pattern[candidate]? := by
      rw [isByte, isOther]
      exact fun equal => same (Option.some.inj equal)
    have fallsBack := FallsBack.of_ne longest.1 longest.2 differ
    obtain ⟨later, fell, next⟩ := @fallBack_longest _ _ _ needle reads _ (needle.length + 1) _
      (correct.concat fallsBack) inside (by rw [length_append]; omega) (by omega) longest.1 (by
        intro first shorter larger
        obtain rfl := Nat.le_antisymm (longest.2 first shorter) larger
        exact differ.symm)
    exact ⟨candidate, later, by simp [tableEntry, reads, isByte, isOther, same, fell],
      fallsBack, next⟩

theorem tableLoop_correct (correct : Correct pattern table) (inside : table.length ≤ pattern.length)
    (longest : Longest pattern candidate table.length) (short : ShortBorders pattern table.length)
    (enough : pattern.length < fuel + table.length) :
    (∃ result, tableLoop element needle fuel table candidate = some result ∧
      Correct pattern result ∧ pattern.length ≤ result.length ∧
      ShortBorders pattern pattern.length) ∨ tableLoop element needle fuel table candidate = none ∧
      ¬ ShortBorders pattern pattern.length := by
  induction fuel generalizing table candidate with
  | zero => omega
  | succ fuel ih =>
    by_cases done : pattern.length ≤ table.length
    · refine .inl ⟨table, ?_, correct, done, Nat.le_antisymm inside done ▸ short⟩
      rw [tableLoop, if_pos (by omega)]
    obtain ⟨entry, later, made, fallsBack, low, next⟩ :=
      tableEntry_correct reads sameLength correct (by omega) longest
    have length : (table ++ [entry]).length = table.length + 1 := by simp
    rw [tableLoop, if_neg (by omega), made]
    simp only [some_bind, nextInt_eq low]
    split_ifs with fits
    · refine ih (correct.concat fallsBack) (by omega) (by rwa [length]) ?_ (by omega)
      intro first other bound border
      by_cases isLast : other = table.length + 1
      · subst isLast
        exact Nat.lt_of_le_of_lt (next.2 first border) fits
      · exact short first other (by omega) border
    · exact .inr ⟨rfl, fun all => fits (all _ _ (by omega) next.1)⟩

theorem prepareKmpPartialTable_correct (notEmpty : needle ≠ []) :
    (∃ table, prepareKmpPartialTable element needle = some table ∧
      Correct pattern table ∧ pattern.length ≤ table.length ∧ ShortBorders pattern pattern.length) ∨
    prepareKmpPartialTable element needle = none ∧ ¬ ShortBorders pattern pattern.length := by
  have pos := length_pos_iff.mpr notEmpty
  have empty : ∀ first length, length ≤ 1 → Border pattern first length → first = 0 := by
    intro first length bound border
    have less := border.1
    omega
  refine tableLoop_correct reads sameLength ?_ (by simp; omega) ?_ ?_ (by simp; omega)
  · intro length bound
    obtain rfl : length = 0 := by simpa using bound
    exact ⟨-1, rfl, fallsBack_zero⟩
  · exact ⟨Border.zero Nat.one_pos, fun first border =>
      Nat.le_of_eq (empty first 1 (by simp) border)⟩
  · intro first length bound border
    rw [empty first length bound border]
    decide

end

/-- The first occurrence of the pattern, with how far its end is. -/
def Found (pattern text : List UInt8) : Option Nat → Prop
  | none => IsFirst pattern text none
  | some distance => pattern.length ≤ distance ∧
      IsFirst pattern text (some (distance - pattern.length))

/-- The part of the haystack that is not read yet. -/
def unread (order : List UInt8 → List UInt8) : List (List UInt8) → Nat → List UInt8
  | [], _ => []
  | chunk :: rest, current => (order chunk).drop current ++ (rest.map order).flatten

/-- The part of a needle that an `int` can count. -/
def countable (pattern : List UInt8) : List UInt8 := pattern.take (2 ^ 31)

/-- What the search returns: it does not get to the end of a needle that an
`int` cannot count. -/
def counted (pattern : List UInt8) (result : Option Nat) : Option (Option Nat) :=
  if pattern.length < 2 ^ 31 ∨ result = none then some result else none

theorem countable_getElem? (inside : index < 2 ^ 31) :
    (countable pattern)[index]? = pattern[index]? :=
  getElem?_take_of_lt inside

theorem Correct.countable (correct : Correct pattern table) {length : Nat}
    (bound : length < table.length) (inside : length < 2 ^ 31) :
    ∃ entry, table[length]? = some entry ∧ FallsBack (countable pattern) length entry := by
  obtain ⟨entry, found, fallsBack⟩ := correct length bound
  have borders : ∀ first, Border (MemMem.countable pattern) first length ↔
      Border pattern first length := by
    intro first
    refine and_congr_right fun less => forall₂_congr fun index below => ?_
    rw [countable_getElem? (by omega), countable_getElem? (by omega)]
  refine ⟨entry, found, fallsBack.low, ?_, ?_⟩
  · intro nonnegative
    obtain ⟨border, differ⟩ := fallsBack.border nonnegative
    have less := border.1
    rw [borders, countable_getElem? (by omega), countable_getElem? inside]
    exact ⟨border, differ⟩
  · intro first border less
    rw [borders] at border
    have below := border.1
    rw [countable_getElem? (by omega), countable_getElem? inside]
    exact fallsBack.longest first border less

/-- An `int` holds the indices that the search goes through: the part of the
needle that can be counted is the needle, or it is neither a second time in the
needle nor in the text. -/
def IndexFits (pattern text : List UInt8) : Prop := ShortBorders pattern pattern.length ∧
    (2 ^ 31 ≤ pattern.length → IsFirst (countable pattern) text none)

theorem indexFits_of_short (short : pattern.length < 2 ^ 31) : IndexFits pattern text := by
  refine ⟨fun first length bound border => ?_, fun long => by omega⟩
  have less := border.1
  omega

section

variable {element : List UInt8 → Nat → Option UInt8} {order : List UInt8 → List UInt8}
  {needle text : List UInt8} (reads : ∀ bytes index, element bytes index = (order bytes)[index]?)
  (lengths : ∀ bytes, (order bytes).length = bytes.length)

include reads lengths

theorem searchLoop_found {current total needleIndex : Nat} {chunks : List (List UInt8)}
    (correct : Correct (order needle) table) (whole : needle.length ≤ table.length)
    (left : text.drop total = unread order chunks current)
    (scanned : Scanned (countable (order needle)) text total needleIndex)
    (inside : needleIndex < (countable (order needle)).length)
    (enough : 2 * (text.length - total) + needleIndex + chunks.length < fuel) :
    ∃ result, searchLoop element needle table fuel chunks current total
        needleIndex = counted (order needle) result ∧
      Found (countable (order needle)) text result := by
  have countableLength : (countable (order needle)).length = min (2 ^ 31) needle.length := by
    rw [countable, length_take, lengths]
  have someCounted : ∀ result, needle.length < 2 ^ 31 ∨ result = none →
      counted (order needle) result = some result := by
    intro result fits
    rw [counted, lengths, if_pos fits]
  induction fuel generalizing chunks current total needleIndex with
  | zero => cases enough
  | succ fuel ih =>
    have below : needleIndex < 2 ^ 31 := by omega
    cases chunks with
    | nil =>
      refine ⟨none, (someCounted none (.inr rfl)).symm, fun start occurs => ?_⟩
      by_cases before : start + needleIndex < total
      · exact scanned.none start before occurs
      · have atEnd : text.length ≤ total := drop_eq_nil_iff.mp left
        have last := occurs needleIndex inside
        rw [getElem?_eq_none (by omega), getElem?_eq_getElem inside] at last
        cases last
    | cons chunk rest =>
      by_cases read : chunk.length ≤ current
      · have remaining : text.drop total = unread order rest 0 := by
          rw [left, unread, drop_eq_nil_of_le (by rw [lengths]; exact read)]
          cases rest <;> simp [unread]
        rw [length_cons] at enough
        rw [searchLoop, if_pos read]
        exact ih remaining scanned inside (by omega)
      · have currentInside : current < (order chunk).length := by
          rw [lengths]
          omega
        obtain ⟨other, isOther⟩ := exists_byte currentInside
        obtain ⟨byte, isByte⟩ := exists_byte inside
        have next : text[total]? = some other := by
          have heads := congrArg head? left
          rw [unread, head?_drop, head?_append, head?_drop, isOther] at heads
          exact heads
        have remaining : text.drop (total + 1) = unread order (chunk :: rest) (current + 1) := by
          rw [← tail_drop, left, unread, unread, ← tail_drop, tail_append_of_ne_nil]
          intro isEmpty
          rw [drop_eq_nil_iff] at isEmpty
          omega
        have textInside := (List.getElem?_eq_some_iff.mp next).1
        have isElement : element needle needleIndex = some byte := by
          rw [reads, ← countable_getElem? below, isByte]
        simp only [searchLoop, if_neg read, isElement, reads chunk, isOther,
          Option.bind_eq_bind, Option.bind_some]
        by_cases same : byte = other
        · have scannedNext := scanned.next (by rw [next, isByte, same])
          rw [if_pos same, nextInt_eq (by omega)]
          by_cases last : needleIndex + 1 = (countable (order needle)).length
          · -- The whole needle has matched, or as much of it as can be counted.
            rw [last] at scannedNext
            refine ⟨some (total + 1), ?_, scannedNext.less, scannedNext.occurs, ?_⟩
            · rw [counted, lengths]
              by_cases fits : needle.length < 2 ^ 31
              · rw [if_pos (by omega), if_pos (.inl fits)]
                exact if_pos (by omega)
              · rw [if_neg (by omega), if_neg (by simp; omega)]
                rfl
            · intro start before
              exact scannedNext.none start (by omega)
          · rw [if_pos (by omega)]
            simp only [Option.bind_some]
            rw [if_neg (by omega)]
            exact ih remaining scannedNext (by omega) (by omega)
        · have differ : text[total]? ≠ (countable (order needle))[needleIndex]? := by
            rw [next, isByte]
            exact fun equal => same (Option.some.inj equal).symm
          obtain ⟨entry, entered, fallsBack⟩ :=
            correct.countable (by omega : needleIndex < table.length) below
          rw [if_neg same, entered]
          simp only [Option.bind_some]
          by_cases negative : entry < 0
          · have zero : (entry + 1).toNat = 0 := by omega
            rw [if_pos negative, zero]
            exact ih remaining (scanned.restart fallsBack inside differ negative)
              (by omega) (by omega)
          · obtain ⟨border, _⟩ := fallsBack.border (by omega)
            have shorter := border.1
            rw [if_neg negative]
            exact ih left (scanned.fall fallsBack inside differ (by omega))
              (by omega) (by omega)

theorem search_found (notEmpty : needle ≠ []) (haystack : List (List UInt8)) :
    Decides (IndexFits (order needle) (haystack.map order).flatten)
      (search element needle haystack) (Found (order needle) (haystack.map order).flatten) := by
  rw [search]
  rcases prepareKmpPartialTable_correct (reads needle) (lengths needle) notEmpty with
    ⟨table, prepared, correct, whole, short⟩ | ⟨failed, long⟩
  · have pos := length_pos_iff.mpr notEmpty
    have total : (haystack.map order).flatten.length = haystack.flatten.length := by
      simp [Function.comp_def, lengths]
    rw [lengths] at whole
    obtain ⟨result, searched, found⟩ := @searchLoop_found table _ _ needle
      (haystack.map order).flatten reads lengths
      (2 * haystack.flatten.length + haystack.length + 1) 0 0 0 haystack correct whole
      (by cases haystack <;> simp [unread]) .start
      (by rw [countable, length_take, lengths]; omega) (by omega)
    simp only [prepared, some_bind]
    rw [searched, counted]
    by_cases fits : (order needle).length < 2 ^ 31
    · have all : countable (order needle) = order needle := take_of_length_le (by omega)
      rw [all] at found
      rw [if_pos (.inl fits)]
      exact ⟨fun _ => ⟨result, rfl, found⟩, fun beyond => absurd (indexFits_of_short fits) beyond⟩
    · cases result with
      | none =>
        have less : ∀ start, ¬ Occurs (order needle) (haystack.map order).flatten start := by
          intro start occurs
          refine found start fun index inside => ?_
          rw [countable, length_take] at inside
          rw [countable_getElem? (by omega)]
          exact occurs index (by omega)
        rw [if_pos (.inr rfl)]
        exact ⟨fun _ => ⟨none, rfl, less⟩, fun beyond => absurd ⟨short, fun _ => found⟩ beyond⟩
      | some distance =>
        rw [if_neg (by simp; omega)]
        exact ⟨fun both => absurd found.2.1 (both.2 (by omega) _), fun _ => rfl⟩
  · rw [failed]
    exact ⟨fun fits => absurd fits.1 long, fun _ => rfl⟩

end

end MemMem

section

variable {haystack : List (List UInt8)}

theorem memmem_isFirst (notEmpty : needle ≠ []) (haystack : List (List UInt8)) :
    Decides (MemMem.IndexFits needle haystack.flatten) (memmem haystack needle)
      (IsFirst needle haystack.flatten) := by
  have found := @MemMem.search_found fromStart id needle (fun _ _ => rfl) (fun _ => rfl) notEmpty
    haystack
  rw [map_id] at found
  rw [memmem]
  refine ⟨fun fits => ?_, fun beyond => by rw [found.2 beyond]; rfl⟩
  obtain ⟨result, searched, isFirst⟩ := found.1 fits
  refine ⟨_, by rw [searched]; rfl, ?_⟩
  cases result with
  | none => exact isFirst
  | some distance => exact isFirst.2

/-- The haystack from its end. -/
def backwards (haystack : List (List UInt8)) : List UInt8 := (haystack.map List.reverse).flatten

theorem memmemReverse_found (notEmpty : needle ≠ []) (haystack : List (List UInt8)) :
    Decides (MemMem.IndexFits needle.reverse (backwards haystack))
      (memmemReverse haystack needle) (MemMem.Found needle.reverse (backwards haystack)) :=
  @MemMem.search_found fromEnd reverse needle fromEnd_eq (fun _ => length_reverse)
    notEmpty haystack

end

namespace Detail

/-- `needle_mask`, from an index of the needle on. -/
def needleMask : List UInt8 → Nat → (UInt8 → BitVec 32) → UInt8 → BitVec 32
  | [], _, mask => mask
  | byte :: rest, index, mask =>
    needleMask rest (index + 1) (Function.update mask byte (mask byte &&& ~~~(1#32 <<< index)))

def bitapLoop (mask : UInt8 → BitVec 32) (needleLength : Nat) :
    List UInt8 → Nat → BitVec 32 → Option Nat
  | [], _, _ => none
  | byte :: rest, index, lookup =>
    let lookup := (lookup ||| mask byte) <<< 1
    if lookup &&& (1#32 <<< needleLength) = 0#32 then some (index + 1 - needleLength)
    else bitapLoop mask needleLength rest (index + 1) lookup

/-- The offset of the pointer that is returned. -/
def bitapBitwise (haystack needle : List UInt8) : Option (Option Nat) := do
  verify (decide (needle.length < 32))
  return bitapLoop (needleMask needle 0 fun _ => 0xffffffff#32) needle.length haystack 0
    0xfffffffe#32

end Detail

def memmemOptional (haystack needle : List UInt8) : Option (Option Nat) :=
  if needle.length = 0 then some (some 0)
  else if haystack.length < needle.length then some none
  else if haystack.length = needle.length then
    some (if haystack = needle then some 0 else none)
  else if needle.length < 32 then Detail.bitapBitwise haystack needle
  else memmem [haystack] needle

namespace Detail

theorem updated_getLsbD (mask : UInt8 → BitVec 32) (first byte : UInt8) (index : Nat)
    (inside : bit < 32) :
    (Function.update mask first (mask first &&& ~~~(1#32 <<< index)) byte).getLsbD bit =
      ((mask byte).getLsbD bit && !decide (byte = first ∧ bit = index)) := by
  by_cases same : byte = first
  · subst same
    rw [← BitVec.twoPow_eq]
    by_cases here : bit = index
    · simp [← here]
    · simp [here, inside]
  · simp [same]

theorem needleMask_getLsbD (inside : bit < 32) : (needleMask needle index mask byte).getLsbD bit =
      ((mask byte).getLsbD bit && !decide (index ≤ bit ∧ needle[bit - index]? = some byte)) := by
  induction needle generalizing index mask with
  | nil => simp [needleMask]
  | cons first rest ih =>
    rw [needleMask, ih, updated_getLsbD _ _ _ _ inside, Bool.and_assoc]
    congr 1
    rcases Nat.lt_trichotomy bit index with before | rfl | behind
    · simp [Nat.ne_of_lt before, Nat.not_le.mpr before, Nat.not_le.mpr (Nat.lt_succ_of_lt before)]
    · simp [@eq_comm _ first byte]
    · obtain ⟨more, rfl⟩ : ∃ more, bit = index + 1 + more := ⟨bit - index - 1, by omega⟩
      have far : index + 1 + more - index = more + 1 := by omega
      simp [far, Nat.ne_of_gt behind, Nat.le_of_lt behind]

theorem and_bit_eq_zero (word : BitVec 32) (inside : bit < 32) :
    word &&& (1#32 <<< bit) = 0#32 ↔ word.getLsbD bit = false := by
  rw [← BitVec.twoPow_eq, BitVec.and_twoPow]
  cases word.getLsbD bit with
  | false => simp
  | true =>
    simp only [if_true, reduceCtorEq, iff_false]
    intro isZero
    have isSet := congrArg (BitVec.getLsbD · bit) isZero
    simp [inside] at isSet

/-- A number of bytes of the needle are at the end of what was read. -/
def EndsWith (needle text : List UInt8) (total matched : Nat) : Prop :=
  matched ≤ total ∧ ∀ index < matched, text[total - matched + index]? = needle[index]?

theorem endsWith_succ : EndsWith needle text (total + 1) (matched + 1) ↔
      EndsWith needle text total matched ∧ text[total]? = needle[matched]? := by
  have place : ∀ index, total + 1 - (matched + 1) + index = total - matched + index := by omega
  constructor
  · rintro ⟨less, same⟩
    have last := same matched (by omega)
    rw [place, Nat.sub_add_cancel (by omega)] at last
    refine ⟨⟨by omega, fun index bound => ?_⟩, last⟩
    rw [← same index (by omega), place]
  · rintro ⟨⟨less, same⟩, last⟩
    refine ⟨by omega, fun index bound => ?_⟩
    rw [place]
    by_cases isLast : index = matched
    · rw [isLast, Nat.sub_add_cancel less, last]
    · exact same index (by omega)

theorem bitapLoop_isFirst {lookup : BitVec 32} (notEmpty : needle ≠ []) (short : needle.length < 32)
    (masks : ∀ byte, ∀ bit < 32, (mask byte).getLsbD bit = !decide (needle[bit]? = some byte))
    (left : text.drop index = rest)
    (bits : ∀ bit ≤ needle.length, lookup.getLsbD bit = false ↔ EndsWith needle text index bit)
    (earlier : ∀ start, start + needle.length ≤ index → ¬ Occurs needle text start) :
    IsFirst needle text (bitapLoop mask needle.length rest index lookup) := by
  induction rest generalizing index lookup with
  | nil =>
    intro start occurs
    have inside := occurs.le notEmpty
    rw [drop_eq_nil_iff] at left
    exact earlier start (by omega) occurs
  | cons byte rest ih =>
    have next : text[index]? = some byte := by
      rw [← head?_drop, left]
      rfl
    have nextBits : ∀ bit ≤ needle.length, ((lookup ||| mask byte) <<< 1).getLsbD bit = false ↔
        EndsWith needle text (index + 1) bit := by
      intro bit bound
      cases bit with
      | zero => simp [EndsWith]
      | succ bit =>
        rw [endsWith_succ, ← bits bit (by omega), next, BitVec.getLsbD_shiftLeft,
          BitVec.getLsbD_or, Nat.add_sub_cancel, masks byte bit (by omega)]
        have inWord : bit + 1 < 32 := by omega
        simp [inWord, @eq_comm _ (some byte) needle[bit]?]
    have isZero := (and_bit_eq_zero ((lookup ||| mask byte) <<< 1) short).trans
      (nextBits _ (Nat.le_refl _))
    rw [bitapLoop]
    split_ifs with zero
    · obtain ⟨less, occurs⟩ := isZero.mp zero
      exact ⟨occurs, fun start before => earlier start (by omega)⟩
    · refine ih (by rw [← tail_drop, left]; rfl) nextBits ?_
      intro start bound occurs
      by_cases old : start + needle.length ≤ index
      · exact earlier start old occurs
      · obtain rfl : start = index + 1 - needle.length := by omega
        exact zero (isZero.mpr ⟨by omega, occurs⟩)

theorem bitapBitwise_isFirst (notEmpty : needle ≠ []) (short : needle.length < 32)
    (haystack : List UInt8) :
    ∃ result, bitapBitwise haystack needle = some result ∧ IsFirst needle haystack result := by
  have checked : verify (decide (needle.length < 32)) = some () := by simp [short]
  rw [bitapBitwise, checked]
  refine ⟨_, rfl, bitapLoop_isFirst notEmpty short ?_ rfl ?_ ?_⟩
  · intro byte bit inside
    have isSet : ∀ bit < 32, (0xffffffff#32).getLsbD bit = true := by decide
    simp [needleMask_getLsbD inside, isSet bit inside]
  · intro bit bound
    have first : ∀ bit < 32, (0xfffffffe#32).getLsbD bit = false ↔ bit = 0 := by decide
    rw [first bit (by omega)]
    refine ⟨fun isZero => ?_, fun ends => Nat.eq_zero_of_le_zero ends.1⟩
    subst isZero
    exact ⟨Nat.le_refl 0, fun index below => absurd below (Nat.not_lt_zero index)⟩
  · intro start bound
    have pos := length_pos_iff.mpr notEmpty
    omega

end Detail

section

variable {needle text : List UInt8}

theorem memmemOptional_isFirst (notEmpty : needle ≠ []) (haystack : List UInt8) :
    Decides (haystack.length ≤ needle.length ∨ MemMem.IndexFits needle haystack)
      (memmemOptional haystack needle) (IsFirst needle haystack) := by
  have pos := length_pos_iff.mpr notEmpty
  have flat := memmem_isFirst notEmpty [haystack]
  rw [flatten_singleton] at flat
  rw [memmemOptional, if_neg (by omega)]
  by_cases shorter : haystack.length < needle.length
  · refine ⟨fun _ => ⟨none, if_pos shorter, fun start occurs => ?_⟩, fun long => by omega⟩
    have inside := occurs.le notEmpty
    omega
  · rw [if_neg shorter]
    by_cases sameLength : haystack.length = needle.length
    · rw [if_pos sameLength]
      refine ⟨fun _ => ⟨_, rfl, ?_⟩, fun long => by omega⟩
      split_ifs with same
      · rw [same]
        refine ⟨fun index _ => by rw [Nat.zero_add], fun start before => by omega⟩
      intro start occurs
      have inside := occurs.le notEmpty
      obtain rfl : start = 0 := by omega
      refine same (ext_getElem? fun index => ?_)
      by_cases bound : index < needle.length
      · simpa using occurs index bound
      · rw [getElem?_eq_none (by omega), getElem?_eq_none (by omega)]
    · split_ifs with short
      · refine ⟨fun _ => Detail.bitapBitwise_isFirst notEmpty short haystack, fun long => ?_⟩
        exact absurd (MemMem.indexFits_of_short (by omega)) (not_or.mp long).2
      · exact ⟨fun fits => flat.1 (fits.resolve_left (by omega)),
          fun long => flat.2 (not_or.mp long).2⟩

/-- The last occurrence, by its distance from the end, or that there is none. -/
def IsLast (needle text : List UInt8) : Option Nat → Prop
  | none => ∀ start, ¬ Occurs needle text start
  | some distance => distance ≤ text.length ∧ Occurs needle text (text.length - distance) ∧
      ∀ start, text.length - distance < start → ¬ Occurs needle text start

theorem occurs_reverse (inside : start + needle.length ≤ text.length)
    (occurs : Occurs needle text start) :
    Occurs needle.reverse text.reverse (text.length - start - needle.length) := by
  intro index bound
  rw [length_reverse] at bound
  rw [getElem?_reverse (by omega), getElem?_reverse bound,
    ← occurs (needle.length - 1 - index) (by omega)]
  congr 1
  omega

theorem isLast_of_found (notEmpty : needle ≠ [])
    (found : MemMem.Found needle.reverse text.reverse result) : IsLast needle text result := by
  have mirrored : ∀ start, Occurs needle text start →
      Occurs needle.reverse text.reverse (text.length - start - needle.length) :=
    fun start occurs => occurs_reverse (occurs.le notEmpty) occurs
  cases result with
  | none => exact fun start occurs => found _ (mirrored start occurs)
  | some distance =>
    obtain ⟨low, occurs, first⟩ := found
    have inside := occurs.le (by simpa using notEmpty)
    have back := occurs_reverse inside occurs
    simp only [length_reverse, reverse_reverse] at low inside back first
    rw [Nat.sub_sub, Nat.sub_add_cancel low] at back
    refine ⟨by omega, back, fun start behind again => ?_⟩
    have againInside := again.le notEmpty
    exact first _ (by omega) (mirrored start again)

theorem returns_iff (spec : Decides fits search right) : Returns search right ↔ fits := by
  refine ⟨fun ⟨result, returned, _⟩ => ?_, spec.1⟩
  by_contra beyond
  rw [spec.2 beyond] at returned
  cases returned

/-- All searches find the occurrence that they should as long as an `int` holds
the indices of the needle that are reached. -/
theorem substring_searches_iff {needle : List UInt8} (notEmpty : needle ≠ [])
    (chunks : List (List UInt8)) (haystack : List UInt8) :
    (Returns (memmem chunks needle) (IsFirst needle chunks.flatten) ↔
      MemMem.IndexFits needle chunks.flatten) ∧
    (Returns (memmemOptional haystack needle) (IsFirst needle haystack) ↔
      haystack.length ≤ needle.length ∨ MemMem.IndexFits needle haystack) ∧
    (Returns (memmemReverse chunks needle) (IsLast needle chunks.reverse.flatten) ↔
      MemMem.IndexFits needle.reverse chunks.reverse.flatten.reverse) := by
  have mirrored : chunks.reverse.flatten.reverse = backwards chunks := by
    rw [List.reverse_flatten, List.map_reverse, List.reverse_reverse, backwards]
  refine ⟨returns_iff (memmem_isFirst notEmpty chunks),
    returns_iff (memmemOptional_isFirst notEmpty haystack), returns_iff ⟨fun fits => ?_, ?_⟩⟩
  · rw [mirrored] at fits
    obtain ⟨result, searched, found⟩ := (memmemReverse_found notEmpty chunks).1 fits
    rw [← mirrored] at found
    exact ⟨result, searched, isLast_of_found notEmpty found⟩
  · rw [mirrored]
    exact (memmemReverse_found notEmpty chunks).2

/-- A needle across two chunks. -/
theorem substring_searches_two :
    Returns (memmem [[1, 2], [3]] [2, 3]) (IsFirst ([2, 3] : List UInt8) [1, 2, 3]) :=
  (@substring_searches_iff [2, 3] (by decide) [[1, 2], [3]] []).1.mpr
    (MemMem.indexFits_of_short (by decide))

/-- A needle of `2 ^ 31` bytes is not found in itself. -/
theorem not_returns_long :
    ¬ Returns (memmem [List.replicate (2 ^ 31) 7] (List.replicate (2 ^ 31) 7))
      (IsFirst (List.replicate (2 ^ 31) (7 : UInt8)) [List.replicate (2 ^ 31) 7].flatten) := by
  have long : (List.replicate (2 ^ 31) (7 : UInt8)).length = 2 ^ 31 := List.length_replicate
  generalize List.replicate (2 ^ 31) (7 : UInt8) = needle at long
  have notEmpty : needle ≠ [] := by
    rintro rfl
    cases long
  rw [returns_iff (memmem_isFirst notEmpty [needle])]
  intro fits
  refine fits.2 (Nat.le_of_eq long.symm) 0 ?_
  rw [List.flatten_singleton, MemMem.countable, List.take_of_length_le (Nat.le_of_eq long)]
  intro index _
  rw [Nat.zero_add]

end

end MixUpOS.AK
