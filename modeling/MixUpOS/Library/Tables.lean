import Mathlib.Algebra.Order.Ring.Int
import Mathlib.Data.Finset.Card
import Mathlib.Data.List.NodupEquivFin

/-!
# Tables

A table is a list of rows of different lengths.  A value that occurs once in a
table has one place, and one that occurs twice has two.
-/

namespace MixUpOS.Library

open List

variable {α : Type}

/-- The entry of a table in a row and a column. -/
def entry (table : List (List α)) (row column : Nat) : Option α :=
  (table[row]?).bind fun cells => cells[column]?

@[simp]
theorem entry_cons_zero (cells : List α) (table : List (List α)) (column : Nat) :
    entry (cells :: table) 0 column = cells[column]? := rfl

@[simp]
theorem entry_append_row (table : List (List α)) (cells : List α) (row column : Nat) :
    entry (table ++ [cells]) row column =
      if row = table.length then cells[column]?
      else entry table row column := by
  by_cases last : row = table.length
  · simp [entry, last]
  rw [if_neg last]
  rcases Nat.lt_or_gt_of_ne last with before | behind
  · simp [entry, getElem?_append_left before]
  have outside : (table ++ [cells])[row]? = none := by
    apply getElem?_eq_none
    simp only [length_append, length_singleton]
    omega
  have gone : table[row]? = none := getElem?_eq_none (by omega)
  simp [entry, outside, gone]

theorem entry_modify (table : List (List α)) (row column otherRow
    otherColumn : Nat) (change : α → α) :
    entry (table.modify row fun cells => cells.modify column change) otherRow otherColumn =
      if otherRow = row ∧ otherColumn = column then
        (entry table otherRow otherColumn).map change
      else entry table otherRow otherColumn := by
  simp only [entry, getElem?_modify]
  cases table[otherRow]? with
  | none => simp
  | some cells =>
    by_cases sameRow : row = otherRow
    · by_cases sameColumn : column = otherColumn
      · simp [sameRow, sameColumn]
      · have differ : otherColumn ≠ column := Ne.symm sameColumn
        simp [sameRow, sameColumn, differ]
    · have differ : otherRow ≠ row := Ne.symm sameRow
      simp [sameRow, differ]

section

variable [DecidableEq α]

/-- How often a value occurs in a table. -/
def occurrences (table : List (List α)) (value : α) : Nat :=
  (table.map fun cells => cells.count value).sum

theorem occurrences_cons (cells : List α) (table : List (List α)) (value : α) :
    occurrences (cells :: table) value = cells.count value + occurrences table value := by
  simp [occurrences]

theorem two_le_count {cells : List α} {second : Nat} (atFirst : cells[first]? = some value)
    (atSecond : cells[second]? = some value) (differ : first ≠ second) : 2 ≤ cells.count value := by
  obtain ⟨firstInside, firstValue⟩ := List.getElem?_eq_some_iff.mp atFirst
  obtain ⟨secondInside, secondValue⟩ := List.getElem?_eq_some_iff.mp atSecond
  apply List.duplicate_iff_two_le_count.mp
  apply duplicate_iff_exists_distinct_get.mpr
  rcases Nat.lt_or_gt_of_ne differ with before | behind
  · exact ⟨⟨first, firstInside⟩, ⟨second, secondInside⟩, before, firstValue.symm, secondValue.symm⟩
  · exact ⟨⟨second, secondInside⟩, ⟨first, firstInside⟩, behind, secondValue.symm, firstValue.symm⟩

theorem occurrences_pos_iff {value : α} :
    0 < occurrences table value ↔ ∃ row column, entry table row column = some value := by
  rw [occurrences, ← count_flatten, count_pos_iff, mem_flatten]
  simp only [mem_iff_getElem?, entry, Option.bind_eq_some_iff]
  tauto

section

variable {table : List (List α)} {value : α} (present : entry table row column = some value)
  (otherPresent : entry table otherRow otherColumn = some value)

include present otherPresent

theorem two_le_occurrences_of_lt (before : row < otherRow) : 2 ≤ occurrences table value := by
  have first : 0 < occurrences (table.take otherRow) value := by
    refine occurrences_pos_iff.mpr ⟨row, column, ?_⟩
    rwa [entry, getElem?_take_of_lt before]
  have second : 0 < occurrences (table.drop otherRow) value := by
    refine occurrences_pos_iff.mpr ⟨0, otherColumn, ?_⟩
    rwa [entry, getElem?_drop]
  rw [← take_append_drop otherRow table, occurrences, map_append, sum_append]
  exact Nat.add_le_add first second

theorem two_le_occurrences (differ : ¬ (row = otherRow ∧ column = otherColumn)) :
    2 ≤ occurrences table value := by
  rcases Nat.lt_trichotomy row otherRow with before | rfl | behind
  · exact two_le_occurrences_of_lt present otherPresent before
  · obtain ⟨cells, atRow, atColumn⟩ := Option.bind_eq_some_iff.mp present
    rw [entry, atRow] at otherPresent
    have twice := two_le_count atColumn otherPresent fun same => differ ⟨rfl, same⟩
    rw [occurrences, ← count_flatten]
    exact Nat.le_trans twice
      ((sublist_flatten_of_mem (mem_of_getElem? atRow)).count_le value)
  · exact two_le_occurrences_of_lt otherPresent present behind

end

theorem occurrences_le_one {value : α}
    (only : ∀ otherRow otherColumn, entry table otherRow otherColumn = some value →
      otherRow = row ∧ otherColumn = column) : occurrences table value ≤ 1 := by
  induction table generalizing row with
  | nil => simp [occurrences]
  | cons cells table ih =>
    rw [occurrences_cons]
    cases row with
    | zero =>
      have inTail : occurrences table value = 0 := by
        by_contra occurs
        obtain ⟨otherRow, otherColumn, present⟩ :=
          occurrences_pos_iff.mp (Nat.pos_of_ne_zero occurs)
        have same := (only (otherRow + 1) otherColumn present).1
        omega
      have inHead : cells.count value ≤ 1 := by
        by_contra occurs
        obtain ⟨first, second, before, atFirst, atSecond⟩ :=
          duplicate_iff_exists_distinct_get.mp (duplicate_iff_two_le_count.mpr
              (Nat.lt_of_not_le occurs))
        have firstPlace := (only 0 first (by rw [atFirst]; simp)).2
        have secondPlace := (only 0 second (by rw [atSecond]; simp)).2
        omega
      omega
    | succ row =>
      have inHead : cells.count value = 0 := by
        apply count_eq_zero.mpr
        intro member
        obtain ⟨otherColumn, present⟩ := mem_iff_getElem?.mp member
        have same := (only 0 otherColumn present).1
        omega
      have inTail : occurrences table value ≤ 1 := by
        refine @ih row ?_
        intro otherRow otherColumn present
        obtain ⟨sameRow, sameColumn⟩ := only (otherRow + 1) otherColumn present
        exact ⟨by omega, sameColumn⟩
      omega

end

theorem card_positions_eq_countP (test : α → Bool) (cells : List α) :
    ((Finset.range cells.length).filter fun column =>
      (cells[column]?).any test = true).card = cells.countP test := by
  induction cells using reverseRecOn with
  | nil => rfl
  | append_singleton cells last ih =>
    have same : ((Finset.range cells.length).filter fun column =>
        ((cells ++ [last])[column]?).any test = true) =
        (Finset.range cells.length).filter fun column =>
          (cells[column]?).any test = true := by
      apply Finset.filter_congr
      intro column inside
      rw [getElem?_append_left (Finset.mem_range.mp inside)]
    rw [length_append, length_singleton, Finset.range_add_one, Finset.filter_insert, same]
    by_cases holds : test last = true <;> simp [holds, ih]

end MixUpOS.Library
