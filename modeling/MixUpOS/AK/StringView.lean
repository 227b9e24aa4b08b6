import Mathlib.Data.List.Basic
import Mathlib.Data.List.TakeWhile

/-!
# Strings

A string is the list of its bytes.
-/

namespace MixUpOS.AK

abbrev StringView := List UInt8

def slash : UInt8 := 47

def dot : UInt8 := 46

namespace StringView

def startsWith (view needle : StringView) : Bool := needle.isPrefixOf view

def endsWith (view needle : StringView) : Bool := needle.isSuffixOf view

def contains (view needle : StringView) : Bool := view.tails.any needle.isPrefixOf

/-- `trim` of one character with `TrimMode::Right`. -/
def trimRight (view : StringView) (character : UInt8) : StringView :=
  (view.reverse.dropWhile (· == character)).reverse

def findLast (haystack : StringView) (needle : UInt8) : Option Nat :=
  (haystack.reverse.findIdx? (· == needle)).map fun index => haystack.length - 1 - index

/-- `split_view` with `SplitBehavior::Nothing`. -/
def splitView (view : StringView) (separator : UInt8) : List StringView :=
  (view.splitOn separator).filter (· ≠ [])

end StringView

/-- The part of a string up to its first slash. -/
def firstPart (view : StringView) : StringView := view.takeWhile (· != slash)

/-- What is behind the first part: nothing, or a slash and the rest. -/
def afterFirstPart (view : StringView) : StringView := view.dropWhile (· != slash)

/-- The parts of a string between slashes. -/
def components (view : StringView) : List StringView := view.splitOn slash

theorem firstPart_append (view : StringView) : firstPart view ++ afterFirstPart view = view :=
  List.takeWhile_append_dropWhile

theorem slash_notMem_firstPart (view : StringView) : slash ∉ firstPart view := by
  intro member
  simpa using List.mem_takeWhile_imp member

theorem afterFirstPart_cases (view : StringView) :
    afterFirstPart view = [] ∨ ∃ rest, afterFirstPart view = slash :: rest := by
  cases dropped : afterFirstPart view with
  | nil => exact .inl rfl
  | cons first rest =>
    right
    have stops := List.head?_dropWhile_not (· != slash) view
    rw [afterFirstPart] at dropped
    rw [dropped] at stops
    have isSlash : first = slash := by simpa using stops
    exact ⟨rest, by rw [isSlash]⟩

theorem components_of_nothing (nothing : afterFirstPart view = []) :
    components view = [firstPart view] := by
  have whole := firstPart_append view
  rw [nothing, List.append_nil] at whole
  have noSlash := slash_notMem_firstPart view
  rw [whole] at noSlash ⊢
  exact List.splitOn_eq_singleton noSlash

theorem components_of_more (more : afterFirstPart view = slash :: rest) :
    components view = firstPart view :: components rest := by
  have whole := firstPart_append view
  rw [more] at whole
  calc
    components view = (firstPart view ++ slash :: rest).splitOn slash := by
      rw [whole]
      rfl
    _ = firstPart view :: components rest := by
      rw [List.splitOn_append_cons_self, List.splitOn_eq_singleton (slash_notMem_firstPart view)]
      rfl

theorem components_ne_nil (view : StringView) : components view ≠ [] := List.splitOn_ne_nil _ _

end MixUpOS.AK
