import Mathlib.Data.List.Basic

/-!
# Pattern matching with a table of borders

A border of a prefix of a pattern is a shorter prefix that the prefix ends
with.  When a text goes on with something else than the pattern, the borders
of what has matched are what can still match, and among them only those that
the pattern continues differently.
-/

namespace MixUpOS.Library

namespace PatternMatching

variable {α : Type} {pattern text : List α}

section

variable (pattern)

/-- The prefix of length `first` is at the end of the one of length
`second`. -/
def Border (first second : Nat) : Prop :=
  first < second ∧ ∀ index < first, pattern[index]? = pattern[second - first + index]?

/-- Where to go on after a mismatch behind a prefix: the longest border that is
continued differently, or a negative number if there is none. -/
structure FallsBack (length : Nat) (entry : Int) : Prop where
  low : -1 ≤ entry
  border : 0 ≤ entry → Border pattern entry.toNat length ∧ pattern[entry.toNat]? ≠ pattern[length]?
  longest : ∀ first, Border pattern first length → entry < first →
    pattern[first]? = pattern[length]?

def Occurs (text : List α) (start : Nat) : Prop :=
  ∀ index < pattern.length, text[start + index]? = pattern[index]?

/-- `matched` elements of the pattern are at the end of what was read of the
text, and no occurrence starts before them. -/
structure Scanned (text : List α) (total matched : Nat) : Prop where
  less : matched ≤ total
  agrees : ∀ index < matched, text[total - matched + index]? = pattern[index]?
  none : ∀ start, start + matched < total → ¬ Occurs pattern text start

end

/-- The first occurrence of the pattern, or that there is none. -/
def IsFirst (pattern text : List α) : Option Nat → Prop
  | none => ∀ start, ¬ Occurs pattern text start
  | some first => Occurs pattern text first ∧ ∀ start < first, ¬ Occurs pattern text start

theorem Occurs.le (occurs : Occurs pattern text start) (notEmpty : pattern ≠ []) :
    start + pattern.length ≤ text.length := by
  have pos := List.length_pos_iff.mpr notEmpty
  have last := occurs (pattern.length - 1) (by omega)
  rw [@List.getElem?_eq_getElem _ pattern _ (by omega), List.getElem?_eq_some_iff] at last
  obtain ⟨inside, _⟩ := last
  omega

theorem Occurs.of_start (occurs : Occurs pattern part start) (isPrefix : part <+: text) :
    Occurs pattern text start := by
  obtain ⟨rest, rfl⟩ := isPrefix
  intro index inside
  have same := occurs index inside
  rw [List.getElem?_eq_getElem inside, List.getElem?_eq_some_iff] at same
  obtain ⟨inPart, _⟩ := same
  rw [List.getElem?_append_left inPart, occurs index inside]

/-- The first occurrence in a text is in its beginning, unless only the rest has
one. -/
theorem IsFirst.of_start (isFirst : IsFirst pattern text result) (isPrefix : part <+: text)
    (notEmpty : pattern ≠ []) :
    IsFirst pattern part result ↔ (IsFirst pattern part none → IsFirst pattern text none) := by
  cases result with
  | none => exact ⟨fun _ _ => isFirst, fun _ start occurs => isFirst _ (occurs.of_start isPrefix)⟩
  | some first =>
    refine ⟨fun found absent => absurd found.1 (absent first), fun absent => ⟨?_, ?_⟩⟩
    · have present : ¬ IsFirst pattern part none := fun none => absent none first isFirst.1
      obtain ⟨start, occurs⟩ := not_forall_not.mp present
      intro index inside
      have bound := occurs.le notEmpty
      have notBefore : ¬ start < first :=
        fun less => isFirst.2 start less (occurs.of_start isPrefix)
      obtain ⟨rest, rfl⟩ := isPrefix
      rw [← isFirst.1 index inside, List.getElem?_append_left (by omega)]
    · exact fun start less occurs => isFirst.2 start less (occurs.of_start isPrefix)

namespace Border

theorem trans (inner : Border pattern first second)
    (outer : Border pattern second third) : Border pattern first third := by
  refine ⟨Nat.lt_trans inner.1 outer.1, ?_⟩
  intro index less
  have smaller := inner.1
  have larger := outer.1
  rw [inner.2 index less, outer.2 _ (by omega)]
  congr 1
  omega

theorem of_longer (short : Border pattern first third)
    (long : Border pattern second third) (less : first < second) : Border pattern first second := by
  refine ⟨less, ?_⟩
  intro index bound
  have larger := long.1
  rw [short.2 index bound, long.2 (second - first + index) (by omega)]
  congr 1
  omega

theorem zero (pos : 0 < second) : Border pattern 0 second := by
  refine ⟨pos, ?_⟩
  intro index bound
  cases bound

theorem succ_iff : Border pattern (first + 1) (second + 1) ↔
    Border pattern first second ∧ pattern[first]? = pattern[second]? := by
  constructor
  · rintro ⟨less, same⟩
    refine ⟨⟨by omega, ?_⟩, ?_⟩
    · intro index bound
      rw [same index (by omega)]
      congr 1
      omega
    · rw [same first (by omega)]
      congr 1
      omega
  · rintro ⟨⟨less, same⟩, last⟩
    refine ⟨by omega, ?_⟩
    intro index bound
    by_cases isLast : index = first
    · subst isLast
      rw [last]
      congr 1
      omega
    · rw [same index (by omega)]
      congr 1
      omega

end Border

theorem fallsBack_zero : FallsBack pattern 0 (-1) where
  low := Int.le_refl _
  border := by
    intro nonnegative
    omega
  longest := by
    intro first border
    exact absurd border.1 (Nat.not_lt_zero _)

section

variable {length : Nat} (border : Border pattern candidate length)
  (longest : ∀ first, Border pattern first length → first ≤ candidate)

include border longest

theorem FallsBack.of_ne (differ : pattern[length]? ≠ pattern[candidate]?) :
    FallsBack pattern length candidate where
  low := by omega
  border := fun _ => ⟨border, differ.symm⟩
  longest := by
    intro first shorter less
    have bound := longest first shorter
    omega

theorem FallsBack.of_eq {entry : Int} (same : pattern[length]? = pattern[candidate]?)
    (fallsBack : FallsBack pattern candidate entry) : FallsBack pattern length entry where
  low := fallsBack.low
  border := by
    intro nonnegative
    obtain ⟨shorter, differ⟩ := fallsBack.border nonnegative
    exact ⟨shorter.trans border, by rwa [same]⟩
  longest := by
    intro first shorter less
    by_cases isCandidate : first = candidate
    · rw [isCandidate, same]
    · have bound := longest first shorter
      rw [same]
      exact fallsBack.longest first (shorter.of_longer border (by omega)) less

end

namespace Scanned

variable {entry : Int}

theorem start : Scanned pattern text 0 0 where
  less := Nat.le_refl 0
  agrees := by
    intro index bound
    cases bound
  none := by
    intro start bound
    cases bound

section

variable (scanned : Scanned pattern text total matched)

include scanned

theorem next (same : text[total]? = pattern[matched]?) :
    Scanned pattern text (total + 1) (matched + 1) where
  less := Nat.succ_le_succ scanned.less
  agrees := by
    intro index bound
    have less := scanned.less
    by_cases isLast : index = matched
    · subst isLast
      rw [← same]
      congr 1
      omega
    · rw [← scanned.agrees index (by omega)]
      congr 1
      omega
  none := by
    intro start bound
    exact scanned.none start (by omega)

section

variable (fallsBack : FallsBack pattern matched entry)

include fallsBack

section

variable (inside : matched < pattern.length)

include inside

section

variable (differ : text[total]? ≠ pattern[matched]?)

include differ

theorem not_occurs {start : Nat} (low : total ≤ start + matched) (high : start + entry < total)
    (inText : start ≤ total) : ¬ Occurs pattern text start := by
  intro occurs
  have less := scanned.less
  obtain ⟨first, rfl⟩ : ∃ first, total = start + first := ⟨total - start, by omega⟩
  have atEnd := occurs first (by omega)
  by_cases whole : first = matched
  · rw [whole] at atEnd differ
    exact differ atEnd
  have border : Border pattern first matched := by
    refine ⟨by omega, ?_⟩
    intro index bound
    rw [← occurs index (by omega), ← scanned.agrees (matched - first + index) (by omega)]
    congr 1
    omega
  have same := fallsBack.longest first border (by omega)
  rw [same] at atEnd
  exact differ atEnd

theorem fall (nonnegative : 0 ≤ entry) : Scanned pattern text total entry.toNat := by
  obtain ⟨border, _⟩ := fallsBack.border nonnegative
  have shorter := border.1
  have less := scanned.less
  refine ⟨by omega, ?_, ?_⟩
  · intro index bound
    rw [border.2 index bound, ← scanned.agrees _ (by omega)]
    congr 1
    omega
  · intro start bound
    by_cases before : start + matched < total
    · exact scanned.none start before
    · exact scanned.not_occurs fallsBack inside differ (by omega) (by omega) (by omega)

theorem restart (negative : entry < 0) : Scanned pattern text (total + 1) 0 where
  less := Nat.zero_le _
  agrees := by
    intro index bound
    cases bound
  none := by
    intro start bound
    by_cases before : start + matched < total
    · exact scanned.none start before
    · exact scanned.not_occurs fallsBack inside differ (by omega) (by omega) (by omega)

end

end

end

end

theorem occurs (scanned : Scanned pattern text total pattern.length) :
    Occurs pattern text (total - pattern.length) := scanned.agrees

end Scanned

end PatternMatching

end MixUpOS.Library
