import Mathlib.Data.List.Basic

/-!
# Ordered lists of disjoint intervals

Items occupy half-open intervals of numbers and are kept in a list, ordered
by where they start.  The operations are those of a search tree that is keyed
by the start of an item.
-/

namespace MixUpOS.Library.Intervals

open List

variable {ρ : Type} (start stop : ρ → Nat)

def Covers (item : ρ) (point : Nat) : Prop := start item ≤ point ∧ point < stop item

/-- No point between `lower` and `upper` is covered. -/
def Avoids (lower upper : Nat) (item : ρ) : Prop := stop item ≤ lower ∨ upper ≤ start item

/-- Nonempty intervals, each of which ends before the next one starts. -/
structure Separated (items : List ρ) : Prop where
  nonempty : ∀ item ∈ items, start item < stop item
  ordered : items.Pairwise fun item later => stop item ≤ start later

def insert (new : ρ) : List ρ → List ρ
  | [] => [new]
  | head :: tail =>
    if start new < start head then new :: head :: tail
    else head :: insert new tail

def find (key : Nat) (items : List ρ) : Option ρ := items.find? fun item => start item == key

def remove (key : Nat) (items : List ρ) : List ρ := items.eraseP fun item => start item == key

/-- The last item that starts at or before the key. -/
def largestNotAbove (key : Nat) (items : List ρ) : Option ρ :=
  (items.filter fun item => start item ≤ key).getLast?

/-- Change the item with the given key in place. -/
def update (key : Nat) (change : ρ → ρ) (items : List ρ) : List ρ :=
  items.map fun item => if start item = key then change item else item

/-- The item that covers a point. -/
def lookup (point : Nat) (items : List ρ) : Option ρ :=
  items.find? fun item => start item ≤ point && point < stop item

variable {start stop}
variable {items : List ρ} {item : ρ} {point : Nat}

instance : Decidable (Covers start stop item point) := inferInstanceAs (Decidable (_ ∧ _))

theorem separated_nil : Separated start stop [] := ⟨by simp, .nil⟩

theorem Separated.tail {head : ρ} (separated : Separated start stop (head :: rest)) :
    Separated start stop rest :=
  ⟨(forall_mem_cons.mp separated.nonempty).2, (pairwise_cons.mp separated.ordered).2⟩

section

variable (separated : Separated start stop items)

include separated

theorem Separated.apart (member : item ∈ items) (otherMember : other ∈ items) :
    item = other ∨ stop item ≤ start other ∨ stop other ≤ start item := by
  refine Pairwise.forall_of_forall_of_flip (R := fun item other =>
    item = other ∨ stop item ≤ start other ∨ stop other ≤ start item) ?_ ?_ ?_ member otherMember
  · exact fun _ _ => .inl rfl
  · exact separated.ordered.imp fun before => .inr (.inl before)
  · exact separated.ordered.imp fun before => .inr (.inr before)

theorem Separated.eq_of_covers (member : item ∈ items) (otherMember : other ∈ items)
    (covers : Covers start stop item point)
    (otherCovers : Covers start stop other point) : item = other := by
  unfold Covers at covers otherCovers
  rcases separated.apart member otherMember with same | before | after
  · exact same
  · omega
  · omega

theorem Separated.eq_of_start (member : item ∈ items) (otherMember : other ∈ items)
    (same : start item = start other) : item = other := by
  have nonempty := separated.nonempty item member
  have otherNonempty := separated.nonempty other otherMember
  have covers : Covers start stop item (start item) := ⟨Nat.le_refl _, nonempty⟩
  apply separated.eq_of_covers member otherMember covers
  exact ⟨by omega, by omega⟩

end

theorem mem_insert : item ∈ insert start new items ↔ item = new ∨ item ∈ items := by
  induction items with
  | nil => simp [insert]
  | cons head rest ih =>
    rw [insert]
    split
    · simp
    · simp only [mem_cons, ih]
      tauto

theorem length_insert : (insert start new items).length = items.length + 1 := by
  induction items with
  | nil => rfl
  | cons head rest ih =>
    rw [insert]
    split
    · rfl
    · simp [ih]

section

variable (separated : Separated start stop items)

include separated

theorem Separated.insert (nonempty : start new < stop new)
    (free : ∀ item ∈ items, Avoids start stop (start new) (stop new) item) :
    Separated start stop (insert start new items) := by
  constructor
  · intro item member
    rcases mem_insert.mp member with rfl | old
    · exact nonempty
    · exact separated.nonempty item old
  · induction items with
    | nil => exact pairwise_singleton _ _
    | cons head rest ih =>
      have headBefore := (pairwise_cons.mp separated.ordered).1
      have headNonempty := separated.nonempty head mem_cons_self
      have headFree := free head mem_cons_self
      unfold Avoids at headFree
      rw [Intervals.insert]
      split
      next before =>
        have newFirst : stop new ≤ start head := by omega
        apply pairwise_cons.mpr
        refine ⟨?_, separated.ordered⟩
        intro later member
        rcases mem_cons.mp member with rfl | inRest
        · exact newFirst
        · have afterHead := headBefore later inRest
          omega
      next after =>
        have restOrdered := ih separated.tail (forall_mem_cons.mp free).2
        apply pairwise_cons.mpr
        refine ⟨?_, restOrdered⟩
        intro later member
        rcases mem_insert.mp member with rfl | inRest
        · omega
        · exact headBefore later inRest

theorem Separated.remove (key : Nat) : Separated start stop (remove start key items) :=
  ⟨fun item member =>
      separated.nonempty item (mem_of_mem_eraseP member),
    separated.ordered.sublist eraseP_sublist⟩

theorem Separated.mem_remove :
    item ∈ Intervals.remove start key items ↔ item ∈ items ∧ start item ≠ key := by
  constructor
  · intro member
    refine ⟨mem_of_mem_eraseP member, ?_⟩
    rintro rfl
    -- The item with the key is in front of what comes behind it.
    obtain ⟨first, before, behind, others, isFirst, isItems, erased⟩ :=
      exists_of_eraseP (p := fun other => start other == start item)
        (mem_of_mem_eraseP member) (by simp)
    rw [Intervals.remove, erased] at member
    rcases mem_append.mp member with earlier | later
    · exact others item earlier (by simp)
    · have ordered := separated.ordered
      rw [isItems] at ordered
      have after := (pairwise_cons.mp (pairwise_append.mp ordered).2.1).1 item later
      have nonempty := separated.nonempty first (by simp [isItems])
      rw [beq_iff_eq] at isFirst
      omega
  · rintro ⟨member, differ⟩
    exact (mem_eraseP_of_neg (by simpa using differ)).mpr member

end

theorem remove_insert (unused : ∀ item ∈ items, start item ≠ start new) :
    Intervals.remove start (start new) (Intervals.insert start new items) = items := by
  induction items with
  | nil => simp [Intervals.insert, Intervals.remove]
  | cons head rest ih =>
    have headOther := unused head mem_cons_self
    have restOther := ih (forall_mem_cons.mp unused).2
    unfold Intervals.remove at restOther ⊢
    rw [Intervals.insert]
    split
    · simp
    · simp [headOther, restOther]

theorem find?_eq_some_of_unique (unique : ∀ {item other}, item ∈ items →
      other ∈ items → test item = true → test other = true → item = other) :
    items.find? test = some item ↔ item ∈ items ∧ test item = true := by
  constructor
  · intro found
    exact ⟨mem_of_find?_eq_some found, find?_some found⟩
  · rintro ⟨member, passes⟩
    cases found : items.find? test with
    | none => exact absurd passes (find?_eq_none.mp found item member)
    | some other =>
      rw [unique member (mem_of_find?_eq_some found) passes (find?_some found)]

theorem Separated.find_eq_some (separated : Separated start stop items) :
    find start key items = some item ↔ item ∈ items ∧ start item = key := by
  rw [find, find?_eq_some_of_unique, beq_iff_eq]
  simp only [beq_iff_eq]
  intro item other member otherMember atKey otherAtKey
  exact separated.eq_of_start member otherMember (atKey.trans otherAtKey.symm)

/-- The item found is the last one not above the key: the others end before
it starts or start above the key. -/
theorem Separated.largestNotAbove_eq_some (separated : Separated start stop items)
    (found : largestNotAbove start key items = some item) :
    item ∈ items ∧ start item ≤ key ∧ ∀ other ∈ items, other = item ∨ stop other ≤ start item ∨
        key < start other := by
  obtain ⟨before, split⟩ := getLast?_eq_some_iff.mp found
  have member : item ∈ items.filter fun item => start item ≤ key := by
    rw [split]
    simp
  have ordered := separated.ordered.sublist
    (filter_sublist (p := fun item => decide (start item ≤ key)))
  rw [split] at ordered
  have beforeItem := (pairwise_append.mp ordered).2.2
  rw [mem_filter, decide_eq_true_iff] at member
  refine ⟨member.1, member.2, ?_⟩
  intro other otherMember
  by_cases notAbove : start other ≤ key
  · have inFilter : other ∈ before ++ [item] := by
      rw [← split, mem_filter]
      exact ⟨otherMember, by simpa using notAbove⟩
    rcases mem_append.mp inFilter with earlier | last
    · exact .inr (.inl (beforeItem other earlier item (by simp)))
    · exact .inl (mem_singleton.mp last)
  · exact .inr (.inr (by omega))

theorem largestNotAbove_eq_none :
    largestNotAbove start key items = none ↔ ∀ item ∈ items, key < start item := by
  simp [largestNotAbove]

/-! ## The item at a point

The list as a partial function from points to items. -/

theorem Separated.lookup_eq_some (separated : Separated start stop items) :
    lookup start stop point items = some item ↔ item ∈ items ∧ Covers start stop item point := by
  rw [lookup, find?_eq_some_of_unique]
  · simp [Covers]
  · simp only [Bool.and_eq_true, decide_eq_true_eq]
    exact separated.eq_of_covers

theorem lookup_eq_none : lookup start stop point items = none ↔
    ∀ item ∈ items, ¬ Covers start stop item point := by
  simp [lookup, Covers]

section

variable (separated : Separated start stop items)

include separated

theorem Separated.lookup_congr (othersSeparated : Separated start stop others)
    (same : ∀ item, Covers start stop item point → (item ∈ items ↔ item ∈ others)) :
    lookup start stop point items = lookup start stop point others := by
  apply Option.ext
  intro item
  rw [separated.lookup_eq_some, othersSeparated.lookup_eq_some]
  exact and_congr_left (same item)

theorem Separated.lookup_insert (nonempty : start new < stop new)
    (free : ∀ item ∈ items, Avoids start stop (start new) (stop new) item) :
    lookup start stop point (Intervals.insert start new items) =
      if Covers start stop new point then some new
      else lookup start stop point items := by
  have inserted := separated.insert nonempty free
  split
  next covers =>
    apply inserted.lookup_eq_some.mpr
    exact ⟨mem_insert.mpr (.inl rfl), covers⟩
  next outside =>
    apply inserted.lookup_congr separated
    intro item covers
    rw [mem_insert, or_iff_right]
    rintro rfl
    exact outside covers

theorem Separated.lookup_remove (member : item ∈ items) :
    lookup start stop point (Intervals.remove start (start item) items) =
      if Covers start stop item point then none
      else lookup start stop point items := by
  have removed := separated.remove (start item)
  split
  next covers =>
    apply lookup_eq_none.mpr
    intro other otherMember otherCovers
    obtain ⟨old, differ⟩ := separated.mem_remove.mp otherMember
    apply differ
    rw [separated.eq_of_covers old member otherCovers covers]
  next outside =>
    apply removed.lookup_congr separated
    intro other covers
    rw [separated.mem_remove, and_iff_left_iff_imp]
    intro old same
    apply outside
    rw [← separated.eq_of_start old member same]
    exact covers

end

theorem mem_update : other ∈ update start key change items ↔
    ∃ item ∈ items, other = if start item = key then change item
      else item := by
  simp [update, eq_comm]

theorem Separated.update (separated : Separated start stop items)
    (sameStart : ∀ item, start (change item) = start item)
    (sameStop : ∀ item, stop (change item) = stop item) :
    Separated start stop (update start key change items) := by
  have same : ∀ item, start (if start item = key then change item else item) = start item ∧
      stop (if start item = key then change item else item) = stop item := by
    intro item
    split
    · exact ⟨sameStart item, sameStop item⟩
    · exact ⟨rfl, rfl⟩
  constructor
  · intro other member
    obtain ⟨item, itemMember, rfl⟩ := mem_update.mp member
    simpa only [same] using separated.nonempty item itemMember
  · apply pairwise_map.mpr
    simpa only [same] using separated.ordered

theorem Separated.lookup_update (separated : Separated start stop items) (member : item ∈ items)
    (sameStart : ∀ item, start (change item) = start item)
    (sameStop : ∀ item, stop (change item) = stop item) :
    lookup start stop point (Intervals.update start (start item) change items) =
      if Covers start stop item point then some (change item)
      else lookup start stop point items := by
  have updated : Separated start stop (Intervals.update start (start item) change items) :=
    separated.update sameStart sameStop
  split
  next covers =>
    apply updated.lookup_eq_some.mpr
    refine ⟨mem_update.mpr ⟨item, member, (if_pos rfl).symm⟩, ?_⟩
    unfold Covers
    rw [sameStart, sameStop]
    exact covers
  next outside =>
    apply updated.lookup_congr separated
    intro other covers
    rw [mem_update]
    constructor
    · intro ⟨old, oldMember, changed⟩
      split at changed
      next same =>
        rw [separated.eq_of_start oldMember member same] at changed
        rw [changed, Covers, sameStart, sameStop] at covers
        exact absurd covers outside
      · rw [changed]
        exact oldMember
    · intro old
      refine ⟨other, old, ?_⟩
      rw [if_neg]
      intro same
      rw [separated.eq_of_start old member same] at covers
      exact outside covers

end MixUpOS.Library.Intervals
