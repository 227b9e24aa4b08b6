import Mathlib.Data.List.Basic
import Mathlib.Data.Nat.ModEq

/-!
# The end of a log in a ring

The elements of a log are numbered, and a ring keeps element number `n` in the
place `n % size` until element number `n + size` is written over it.  So the
ring holds the last elements of the log, as many as it has places.
-/

namespace MixUpOS.Library

open List

namespace RingLogs

variable {α : Type} {ring log values : List α} {start length place : Nat}

/-- The elements from a place on. -/
def slice (list : List α) (start length : Nat) : List α := (list.drop start).take length

/-- The list with the values written over what was there. -/
def overwrite (list : List α) (place : Nat) (values : List α) : List α :=
  list.take place ++ values ++ list.drop (place + values.length)

/-- The ring holds the end of the log. -/
def Holds (ring log : List α) : Prop := ∀ number < log.length, log.length ≤ number + ring.length →
    ring[number % ring.length]? = log[number]?

theorem slice_getElem? (list : List α) (index : Nat) : (slice list start length)[index]? =
      if index < length then list[start + index]? else none := by
  rw [slice, getElem?_take]
  split_ifs with inside
  · rw [getElem?_drop]
  · rfl

theorem slice_length {list : List α} (inside : start + length ≤ list.length) :
    (slice list start length).length = length := by
  rw [slice, length_take, length_drop]
  omega

theorem slice_append_slice (list : List α) (first second : Nat) :
    slice list start first ++ slice list (start + first) second =
      slice list start (first + second) := by
  rw [slice, slice, slice, ← drop_drop, ← take_add]

theorem take_slice (list : List α) (count : Nat) :
    (slice list start length).take count = slice list start (min count length) := by
  rw [slice, slice, take_take]

theorem drop_slice (list : List α) (count : Nat) :
    (slice list start length).drop count = slice list (start + count) (length - count) := by
  rw [slice, slice, drop_take, drop_drop]

theorem slice_zero (list : List α) : slice list start 0 = [] := by
  rw [slice, take_zero]

theorem overwrite_length (fits : place + values.length ≤ list.length) :
    (overwrite list place values).length = list.length := by
  simp only [overwrite, length_append, length_take, length_drop]
  omega

theorem overwrite_getElem? (fits : place + values.length ≤ list.length) (index : Nat) :
    (overwrite list place values)[index]? =
      if place ≤ index ∧ index < place + values.length
      then values[index - place]? else list[index]? := by
  have taken : (list.take place).length = place := by
    rw [length_take]
    omega
  rw [overwrite, append_assoc]
  by_cases before : index < place
  · rw [getElem?_append_left (by omega), getElem?_take_of_lt before, if_neg (by omega)]
  rw [getElem?_append_right (by omega), taken]
  by_cases inside : index < place + values.length
  · rw [getElem?_append_left (by omega), if_pos (by omega)]
  · rw [getElem?_append_right (by omega), getElem?_drop, if_neg (by omega)]
    congr 1
    omega

/-- Numbers less than the size of the ring apart have different places. -/
theorem mod_ne {first second : Nat} (less : first < second) (near : second < first + size) :
    first % size ≠ second % size := by
  intro same
  have divides : size ∣ second - first := (Nat.modEq_iff_dvd' (Nat.le_of_lt less)).mp same
  have bound := Nat.le_of_dvd (by omega) divides
  omega

/-- Within a slice that does not wrap, places follow each other. -/
theorem mod_add {number offset : Nat} (fits : number % size + offset < size) :
    (number + offset) % size = number % size + offset := by
  rw [← Nat.mod_add_mod, Nat.mod_eq_of_lt fits]

/-- What is read from the ring is what was written to the log. -/
theorem Holds.slice (holds : Holds ring log) (fits : start % ring.length + length ≤ ring.length)
    (inLog : start + length ≤ log.length) (recent : log.length ≤ start + ring.length) :
    slice ring (start % ring.length) length = slice log start length := by
  apply ext_getElem?
  intro index
  rw [slice_getElem?, slice_getElem?]
  split_ifs with inside
  · rw [← mod_add (by omega)]
    exact holds (start + index) (by omega) (by omega)
  · rfl

/-- Writing at the end of the log overwrites its oldest elements. -/
theorem Holds.append (holds : Holds ring log)
    (fits : log.length % ring.length + values.length ≤ ring.length) :
    Holds (overwrite ring (log.length % ring.length) values) (log ++ values) := by
  intro number bound recent
  rw [length_append] at bound recent
  rw [overwrite_length fits] at recent ⊢
  rw [overwrite_getElem? fits]
  by_cases old : number < log.length
  · -- The places written are those of younger numbers less than a round away.
    have untouched : ¬ (log.length % ring.length ≤ number % ring.length ∧ number % ring.length <
          log.length % ring.length + values.length) := by
      rintro ⟨low, high⟩
      have shifted := @mod_add ring.length log.length
        (number % ring.length - log.length % ring.length) (by omega)
      have apart := @mod_ne ring.length number (log.length +
          (number % ring.length - log.length % ring.length))
        (by omega) (by omega)
      omega
    rw [if_neg untouched, getElem?_append_left old]
    exact holds number old (by omega)
  · obtain ⟨offset, rfl⟩ := Nat.exists_eq_add_of_le (Nat.le_of_not_lt old)
    have place := @mod_add ring.length log.length offset (by omega)
    rw [if_pos (by omega), getElem?_append_right (by omega)]
    congr 1
    omega

theorem holds_self (list : List α) : Holds list list := by
  intro number bound _
  rw [Nat.mod_eq_of_lt bound]

theorem holds_nil (ring : List α) : Holds ring [] := by
  intro number bound
  cases bound

/-- The log has grown by copying what stands `distance` elements earlier. -/
structure Copies (distance : Nat) (log later : List α) : Prop where
  grown : log <+: later
  copied : ∀ number < later.length, log.length ≤ number → later[number]? = later[number - distance]?

namespace Copies

theorem refl (distance : Nat) (log : List α) : Copies distance log log where
  grown := prefix_refl log
  copied := fun _ bound low => absurd bound (Nat.not_lt.mpr low)

theorem getElem? (copies : Copies distance log later) (old : number < log.length) :
    later[number]? = log[number]? := by
  obtain ⟨rest, rfl⟩ := copies.grown
  exact getElem?_append_left old

theorem trans (first : Copies distance log middle)
    (second : Copies distance middle later) : Copies distance log later where
  grown := first.grown.trans second.grown
  copied := by
    intro number bound low
    by_cases young : middle.length ≤ number
    · exact second.copied number bound young
    · rw [second.getElem? (by omega), second.getElem? (by omega)]
      exact first.copied number (by omega) low

/-- Once a whole distance has been copied, twice the distance copies the
same. -/
theorem double (first : Copies distance log middle) (whole : middle.length = log.length + distance)
    (second : Copies (2 * distance) middle later) : Copies distance log later where
  grown := first.grown.trans second.grown
  copied := by
    intro number
    induction number using Nat.strong_induction_on with
    | _ number ih =>
      intro bound low
      by_cases young : middle.length ≤ number
      · by_cases still : distance = 0
        · rw [still, Nat.sub_zero]
        · have earlier := ih (number - distance) (by omega) (by omega) (by omega)
          rw [second.copied number bound young, earlier]
          congr 1
          omega
      · rw [second.getElem? (by omega), second.getElem? (by omega)]
        exact first.copied number (by omega) low

theorem of_slice {count : Nat} (near : count ≤ distance) (inLog : distance ≤ log.length) :
    Copies distance log (log ++ slice log (log.length - distance) count) where
  grown := prefix_append _ _
  copied := by
    intro number bound low
    rw [length_append, slice_length (by omega)] at bound
    rw [getElem?_append_right low, slice_getElem?, if_pos (by omega),
      getElem?_append_left (by omega)]
    congr 1
    omega

end Copies

end RingLogs

end MixUpOS.Library
