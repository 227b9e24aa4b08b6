import Mathlib.Data.List.Nodup
import Mathlib.Data.List.Pairwise
import Mathlib.Data.List.Perm.Basic

/-!
# Lists as sets up to an equivalence

An equivalence is given by a test.  A list without two equivalent members is
a set of classes, each with the member that stands for it.
-/

namespace MixUpOS.Library

open List

/-- The test decides an equivalence. -/
structure Equivalent {α : Type} (same : α → α → Bool) : Prop where
  refl : ∀ member, same member member = true
  symm : ∀ {first second}, same first second = true → same second first = true
  trans : ∀ {first second third}, same first second = true →
    same second third = true → same first third = true

namespace DistinctLists

variable {α : Type}

section

variable (same : α → α → Bool)

/-- No two members are equivalent. -/
def Distinct (list : List α) : Prop := list.Pairwise fun first second => same first second = false

/-- The members that are not equivalent to the given one. -/
def without (list : List α) (value : α) : List α := list.filter fun member => !same member value

/-- The value in place of the member it is equivalent to. -/
def replaced (list : List α) (value : α) : List α :=
  list.map fun member => if same member value then value else member

end

variable {same : α → α → Bool} {list : List α} {member : α}

theorem mem_without : member ∈ without same list value ↔
    member ∈ list ∧ same member value = false := by
  simp [without]

theorem Distinct.filter (distinct : Distinct same list)
    (keep : α → Bool) : Distinct same (list.filter keep) :=
  Pairwise.filter keep distinct

theorem without_of_absent (absent : ∀ member ∈ list, same member value = false) :
    without same list value = list := by
  rw [without, filter_eq_self]
  intro member inList
  simp [absent member inList]

theorem Distinct.concat (distinct : Distinct same list)
    (absent : ∀ member ∈ list, same member value = false) : Distinct same (list ++ [value]) := by
  refine pairwise_append.mpr ⟨distinct, by simp, ?_⟩
  intro member inList other isValue
  rw [mem_singleton.mp isValue]
  exact absent member inList

variable (equivalent : Equivalent same)

include equivalent

theorem symm_false (differ : same first second = false) : same second first = false := by
  cases related : same second first with
  | false => rfl
  | true =>
    rw [equivalent.symm related] at differ
    cases differ

theorem Distinct.perm (distinct : Distinct same list) (permutation : list.Perm other) :
    Distinct same other :=
  (permutation.pairwise_iff (symm_false equivalent)).mp distinct

theorem Distinct.eq_of_same (distinct : Distinct same list) (inList : member ∈ list)
    (otherInList : other ∈ list) (related : same member other = true) : member = other := by
  by_contra apart
  have symmetric : Std.Symm fun first second : α =>
      same first second = false := ⟨fun _ _ => symm_false equivalent⟩
  have differ := Pairwise.forall distinct inList otherInList apart
  rw [related] at differ
  cases differ

theorem Distinct.without_middle {after : List α}
    (distinct : Distinct same (before ++ member :: after)) :
    without same (before ++ member :: after) member = before ++ after := by
  obtain ⟨_, rest, across⟩ := pairwise_append.mp distinct
  have absentBefore : without same before member = before :=
    without_of_absent fun other inBefore => across other inBefore member mem_cons_self
  have absentAfter : without same after member = after := without_of_absent fun other inAfter =>
    symm_false equivalent ((pairwise_cons.mp rest).1 other inAfter)
  rw [without] at absentBefore absentAfter ⊢
  rw [filter_append, absentBefore, filter_cons_of_neg (by simp [equivalent.refl]), absentAfter]

theorem Distinct.perm_without (distinct : Distinct same list) (inList : member ∈ list) :
    list.Perm (member :: without same list member) := by
  obtain ⟨before, after, rfl⟩ := append_of_mem inList
  rw [distinct.without_middle equivalent]
  exact perm_middle

theorem same_congr (related : same member value = true) (candidate : α) :
    same candidate member = same candidate value := by
  rw [Bool.eq_iff_iff]
  exact ⟨fun first => equivalent.trans first related,
    fun second => equivalent.trans second (equivalent.symm related)⟩

theorem without_congr (related : same member other = true) :
    without same list member = without same list other := by
  apply filter_congr
  intro candidate _
  rw [same_congr equivalent related]

section

variable (distinct : Distinct same list)

include distinct

theorem Distinct.perm_replaced (inList : member ∈ list) (related : same member value = true) :
    (replaced same list value).Perm (value :: without same list value) := by
  have parts := distinct.perm_without equivalent inList
  rw [without_congr equivalent related] at parts
  have mapped := parts.map fun candidate =>
    if same candidate value then value else candidate
  have kept : (without same list value).map
      (fun candidate => if same candidate value then value else candidate) =
      without same list value := by
    rw [map_congr_left, map_id]
    intro candidate inRest
    simp [(mem_without.mp inRest).2]
  simpa [related, kept, replaced] using mapped

theorem Distinct.replaced (inList : member ∈ list) (related : same member value = true) :
    Distinct same (replaced same list value) := by
  have whole : Distinct same (value :: without same list value) := by
    refine pairwise_cons.mpr ⟨?_, distinct.filter _⟩
    intro candidate inRest
    exact symm_false equivalent (mem_without.mp inRest).2
  exact whole.perm equivalent (distinct.perm_replaced equivalent inList related).symm

section

variable {ρ : Type} {places : List ρ} {read : ρ → Option α} {place : ρ}
  (reads : places.map read = list.map some) (inPlaces : place ∈ places)
  (found : read place = some member)

include reads inPlaces found

/-- Only the place of the member reads a value that is equivalent to it. -/
theorem read_place (otherPlace : other ∈ places) :
    ∃ candidate, read other = some candidate ∧ (same candidate member = true ↔ other = place) := by
  have isRead : ∀ {place}, place ∈ places → ∃ value ∈ list, some value = read place := by
    intro place isPlace
    have image := mem_map_of_mem (f := read) isPlace
    rw [reads] at image
    exact mem_map.mp image
  have nodup : (places.map read).Nodup := by
    rw [reads]
    refine Nodup.map (fun _ _ => Option.some.inj) (distinct.imp ?_)
    rintro first _ differ rfl
    rw [equivalent.refl] at differ
    cases differ
  obtain ⟨candidate, inList, isCandidate⟩ := isRead otherPlace
  obtain ⟨_, memberInList, isMember⟩ := isRead inPlaces
  cases isMember.trans found
  refine ⟨candidate, isCandidate.symm, ?_, ?_⟩
  · intro related
    apply inj_on_of_nodup_map nodup otherPlace inPlaces
    rw [found, ← isCandidate, distinct.eq_of_same equivalent inList memberInList related]
  · rintro rfl
    cases isCandidate.trans found
    exact equivalent.refl _

theorem places_without [DecidableEq ρ] :
    (places.filter (· ≠ place)).map read = (without same list member).map some := by
  have kept : places.filter (· ≠ place) =
      places.filter ((·.any fun candidate => !same candidate member) ∘ read) := by
    apply filter_congr
    intro other otherPlace
    obtain ⟨candidate, isRead, related⟩ :=
      read_place equivalent distinct reads inPlaces found otherPlace
    simp [isRead, ← related]
  rw [kept, ← filter_map, reads, filter_map]
  rfl

theorem places_replaced [DecidableEq ρ] (related : same member value = true) :
    places.map (fun other => if other = place then some value
        else read other) =
      (replaced same list value).map some := by
  have each : (replaced same list value).map some = (list.map some).map
      (Option.map fun candidate => if same candidate value then value else candidate) := by
    simp [replaced]
  rw [each, ← reads, map_map]
  apply map_congr_left
  intro other otherPlace
  obtain ⟨candidate, isRead, here⟩ := read_place equivalent distinct reads inPlaces found otherPlace
  rw [same_congr equivalent related] at here
  simp only [Function.comp_apply, isRead, Option.map_some, here]
  split_ifs <;> rfl

end

end

end DistinctLists

end MixUpOS.Library
