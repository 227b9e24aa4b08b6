import Mathlib.Data.List.Forall2

/-!
# Lists
-/

namespace MixUpOS.Library

section

variable {α β : Type} {related : α → β → Prop}
variable {list : List α} {other : List β}

section

variable (each : List.Forall₂ related list other)

include each

theorem forall₂_exists_right (member : element ∈ list) :
    ∃ found ∈ other, related element found := by
  induction each with
  | nil => cases member
  | @cons head otherHead _ _ here _ ih =>
    rcases List.mem_cons.mp member with rfl | later
    · exact ⟨otherHead, List.mem_cons_self, here⟩
    · obtain ⟨found, foundMember, relation⟩ := ih later
      exact ⟨found, List.mem_cons_of_mem _ foundMember, relation⟩

theorem forall₂_exists_left (member : element ∈ other) : ∃ found ∈ list, related found element := by
  obtain ⟨found, foundMember, relation⟩ := forall₂_exists_right each.flip member
  exact ⟨found, foundMember, relation⟩

theorem forall₂_pairwise (pairwise : list.Pairwise relation)
    (transfer : ∀ {first second : α} {third fourth : β},
      related first third → related second fourth →
      relation first second → otherRelation third fourth) : other.Pairwise otherRelation := by
  induction each with
  | nil => exact .nil
  | @cons head otherHead tail otherTail here rest ih =>
    obtain ⟨headPairs, tailPairs⟩ := List.pairwise_cons.mp pairwise
    apply List.pairwise_cons.mpr
    refine ⟨?_, ih tailPairs⟩
    intro element member
    obtain ⟨found, foundMember, foundRelated⟩ := forall₂_exists_left rest member
    exact transfer here foundRelated (headPairs found foundMember)

end

end

/-- What is dropped from the front is what is not kept iff that holds for the
first element and for the first one that is kept. -/
theorem dropWhile_eq_filter_iff {list : List α}
    (ordered : list.Pairwise fun first second => keep second = false →
      keep first = false ∧ (drop first = true → drop second = true)) :
    list.dropWhile drop = list.filter keep ↔
      (∀ element, list.head? = some element → keep element = false → drop element = true) ∧
        ∀ element, list.find? keep = some element → drop element = false := by
  induction list with
  | nil => simp
  | cons first rest ih =>
    obtain ⟨firstOrdered, restOrdered⟩ := List.pairwise_cons.mp ordered
    have tooLong : ∀ {other : List α}, other.Sublist rest → other ≠ first :: rest := by
      rintro _ sublist rfl
      exact Nat.not_succ_le_self _ sublist.length_le
    cases kept : keep first with
    | true =>
      have all : rest.filter keep = rest := by
        rw [List.filter_eq_self]
        intro element member
        by_contra notKept
        have never := (firstOrdered element member (by simpa using notKept)).1
        rw [kept] at never
        cases never
      cases dropped : drop first with
      | false => simp [kept, dropped, all]
      | true => simp [kept, dropped, all, tooLong (List.dropWhile_sublist drop)]
    | false =>
      cases dropped : drop first with
      | false => simp [kept, dropped, (tooLong List.filter_sublist).symm]
      | true =>
        have next : ∀ element, rest.head? = some element → keep element = false →
            drop element = true := fun element isHead notKept =>
          (firstOrdered element (List.mem_of_mem_head? isHead) notKept).2 dropped
        have rest := ih restOrdered
        rw [and_iff_right next] at rest
        simpa [kept, dropped] using rest

end MixUpOS.Library
