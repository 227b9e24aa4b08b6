import MixUpOS.Library.Circular
import Mathlib.Data.Multiset.Range

/-!
# Robin-hood probing

Entries are kept in `count` slots around a circle.  An entry has an ideal
index, and its probe length is its distance from there.  `Probing` are the two
laws that searches rely on: no slot between the ideal index of an entry and
its slot is free, and the probe length grows by at most one from slot to slot.

An insertion carries an entry along the circle and exchanges it for richer
ones (`Carried`).  A removal moves a hole along the circle until the slot
behind it may follow a free one (`Hole`).
-/

namespace MixUpOS.Library.RobinHood

open Circular Function

variable {α : Type}

/-- All entries of the first `count` slots. -/
def contents (count : Nat) (slots : Nat → Option α) : Multiset α :=
  (Multiset.range count).filterMap slots

section

variable {count index : Nat} {slots : Nat → Option α} {entry : α}

theorem mem_contents : entry ∈ contents count slots ↔
    ∃ index < count, slots index = some entry := by
  simp [contents]

theorem contents_of_free (free : ∀ index < count, slots index = none) :
    contents count slots = 0 := by
  rw [Multiset.eq_zero_iff_forall_notMem]
  intro entry member
  obtain ⟨index, bound, found⟩ := mem_contents.mp member
  simp [free index bound] at found

private theorem filterMap_congr {indices : Multiset Nat}
    (same : ∀ index ∈ indices, slots index = other index) :
    indices.filterMap slots = indices.filterMap other := by
  induction indices using Quotient.inductionOn with
  | h list => exact congrArg _ (List.filterMap_congr same)

section

variable (bound : index < count)

include bound

private theorem contents_split :
    contents count slots = (slots index).elim 0 (fun entry => {entry}) +
        ((Multiset.range count).erase index).filterMap slots := by
  have whole : Multiset.range count = index ::ₘ (Multiset.range count).erase index :=
    (Multiset.cons_erase (by simpa using bound)).symm
  rw [contents]
  conv_lhs => rw [whole]
  cases found : slots index with
  | none => simp [Multiset.filterMap_cons_none _ _ found]
  | some entry => simp [Multiset.filterMap_cons_some _ _ _ found]

private theorem contents_update_split (value : Option α) :
    contents count (update slots index value) = value.elim 0 (fun entry => {entry}) +
        ((Multiset.range count).erase index).filterMap slots := by
  rw [contents_split bound, update_self]
  congr 1
  apply filterMap_congr
  intro other member
  have apart : other ≠ index := by
    rintro rfl
    exact (Multiset.nodup_range count).notMem_erase member
  exact update_of_ne apart _ _

theorem contents_fill (free : slots index = none) :
    contents count (update slots index (some entry)) = entry ::ₘ contents count slots := by
  rw [contents_update_split bound, contents_split bound, free]
  simp

theorem contents_clear (found : slots index = some entry) :
    entry ::ₘ contents count (update slots index none) = contents count slots := by
  rw [contents_update_split bound, contents_split bound, found]
  simp

theorem contents_exchange (found : slots index = some first) :
    first ::ₘ contents count (update slots index (some second)) =
      second ::ₘ contents count slots := by
  rw [contents_update_split bound, contents_split bound, found]
  simp [Multiset.cons_swap]

end

theorem card_contents :
    (contents count slots).card = (List.range count).countP fun index => (slots index).isSome := by
  exact List.length_filterMap_eq_countP

theorem exists_free (room : (contents count slots).card < count) :
    ∃ index < count, slots index = none := by
  by_contra full
  push Not at full
  have all : (contents count slots).card = (List.range count).length := by
    rw [card_contents, List.countP_eq_length]
    intro index member
    rw [Option.isSome_iff_ne_none]
    exact full index (List.mem_range.mp member)
  rw [all, List.length_range] at room
  exact Nat.lt_irrefl count room

end

section

variable (count : Nat) (ideal : α → Nat)

/-- How far an entry at an index is from its ideal index. -/
def probeLength (entry : α) (index : Nat) : Nat := distance count (ideal entry) index

structure Probing (slots : Nat → Option α) : Prop where
  reach : ∀ {index entry}, index < count → slots index = some entry → ∀ {earlier}, earlier < count →
      probeLength count ideal entry earlier < probeLength count ideal entry index →
      slots earlier ≠ none
  growth : ∀ {index first second}, index < count →
    slots index = some first → slots (next count index) = some second →
    probeLength count ideal second (next count index) ≤ probeLength count ideal first index + 1

/-- An entry in hand that may be put down at the index. -/
structure Carried (slots : Nat → Option α) (entry : α) (index : Nat) : Prop where
  bound : index < count
  reach : ∀ {earlier}, earlier < count → probeLength count ideal entry earlier <
      probeLength count ideal entry index →
    slots earlier ≠ none
  behind : ∀ {earlier first}, next count earlier = index → slots earlier = some first →
    probeLength count ideal entry index ≤ probeLength count ideal first earlier + 1

/-- The laws except for one slot that an entry was taken from. -/
structure Hole (slots : Nat → Option α) (hole : Nat) : Prop where
  bound : hole < count
  empty : slots hole = none
  reach : ∀ {index entry}, index < count → slots index = some entry →
    ∀ {earlier}, earlier < count → earlier ≠ hole → probeLength count ideal entry earlier <
        probeLength count ideal entry index →
      slots earlier ≠ none
  growth : ∀ {index first second}, index < count →
    slots index = some first → slots (next count index) = some second →
    probeLength count ideal second (next count index) ≤ probeLength count ideal first index + 1
  across : ∀ {earlier first second}, next count earlier = hole →
    slots earlier = some first → slots (next count hole) = some second →
    probeLength count ideal second (next count hole) ≤ probeLength count ideal first earlier + 2

end

section

variable {count : Nat} {ideal : α → Nat} {slots : Nat → Option α} {entry : α}

theorem probing_of_free (free : ∀ index < count, slots index = none) :
    Probing count ideal slots := by
  constructor
  · intro index entry bound found
    simp [free index bound] at found
  · intro index first second bound found
    simp [free index bound] at found

variable (ideal_lt : ∀ entry, ideal entry < count)

include ideal_lt

/-- Going back from an entry, probe lengths fall by at most one a slot. -/
private theorem poorer_back (low : Nat) (growth : ∀ {index first second}, index < count →
      slots index = some first → slots (next count index) = some second →
      probeLength count ideal second (next count index) ≤ probeLength count ideal first index + 1)
    (bound : index < count) (found : slots index = some entry)
    (filled : ∀ earlier < count, low ≤ probeLength count ideal entry earlier →
      probeLength count ideal entry earlier < probeLength count ideal entry index →
      slots earlier ≠ none) (earlierBound : earlier < count)
    (above : low ≤ probeLength count ideal entry earlier)
    (notFarther : probeLength count ideal entry earlier ≤ probeLength count ideal entry index) :
    ∃ other, slots earlier = some other ∧
      probeLength count ideal entry earlier ≤ probeLength count ideal other earlier := by
  induction gap : probeLength count ideal entry index - probeLength count ideal entry earlier
    generalizing earlier with
  | zero =>
    have here : earlier = index := distance_injective (ideal_lt entry) earlierBound bound
      (Nat.le_antisymm notFarther (Nat.sub_eq_zero_iff_le.mp gap))
    subst here
    exact ⟨entry, found, Nat.le_refl _⟩
  | succ rest ih =>
    have farther : probeLength count ideal entry earlier <
        probeLength count ideal entry index := by omega
    have step : probeLength count ideal entry (next count earlier) =
        probeLength count ideal entry earlier + 1 :=
      distance_next (ideal_lt entry) (next_ne_of_distance_lt (ideal_lt entry) bound farther)
    obtain ⟨second, atNext, poorer⟩ := ih (next_lt earlierBound) (by omega) (by omega) (by omega)
    obtain ⟨first, here⟩ := Option.ne_none_iff_exists'.mp
      (filled earlier earlierBound above farther)
    have grown := growth earlierBound here atNext
    exact ⟨first, here, by omega⟩

namespace Probing

variable (probing : Probing count ideal slots)

include probing

theorem poorer (bound : index < count) (found : slots index = some entry)
    (earlierBound : earlier < count)
    (notFarther : probeLength count ideal entry earlier ≤ probeLength count ideal entry index) :
    ∃ other, slots earlier = some other ∧ probeLength count ideal entry earlier ≤
        probeLength count ideal other earlier := by
  refine poorer_back ideal_lt 0 probing.growth bound found ?_ earlierBound (Nat.zero_le _)
    notFarther
  intro between betweenBound _ closer
  exact probing.reach bound found betweenBound closer

/-- An entry is in front of the first slot that is free or has a smaller probe length. -/
theorem before_richer (bound : index < count) (found : slots index = some entry)
    (stopBound : stop < count) (richer : ∀ other ∈ slots stop,
      probeLength count ideal other stop < probeLength count ideal entry stop) :
    probeLength count ideal entry index < probeLength count ideal entry stop := by
  by_contra notBefore
  obtain ⟨other, atStop, poorer⟩ :=
    probing.poorer ideal_lt bound found stopBound (Nat.le_of_not_lt notBefore)
  exact absurd (richer other atStop) (Nat.not_lt.mpr poorer)

theorem after_free (bound : index < count) (free : slots index = none)
    (found : slots (next count index) = some entry) :
    probeLength count ideal entry (next count index) = 0 := by
  by_contra pos
  have continues : next count index ≠ ideal entry := by
    intro same
    simp [probeLength, same] at pos
  have step : probeLength count ideal entry (next count index) =
      probeLength count ideal entry index + 1 :=
    distance_next (ideal_lt entry) continues
  exact probing.reach (next_lt bound) found bound (by omega) free

end Probing

end

section

variable {count : Nat} {ideal : α → Nat} {slots : Nat → Option α} {entry : α}

theorem Probing.put (probing : Probing count ideal slots)
    (carried : Carried count ideal slots entry index)
    (after : ∀ {second}, slots (next count index) = some second →
      probeLength count ideal second (next count index) ≤ probeLength count ideal entry index + 1) :
    Probing count ideal (update slots index (some entry)) := by
  have stays : ∀ {other}, slots other ≠ none → update slots index (some entry) other ≠ none := by
    intro other filled
    by_cases here : other = index
    · simp [here]
    · simpa [here] using filled
  constructor
  · intro place found placeBound atPlace earlier earlierBound closer
    apply stays
    by_cases here : place = index
    · subst here
      rw [update_self] at atPlace
      cases atPlace
      exact carried.reach earlierBound closer
    · rw [update_of_ne here] at atPlace
      exact probing.reach placeBound atPlace earlierBound closer
  · intro place first second placeBound atPlace atNext
    by_cases here : place = index
    · subst here
      rw [update_self] at atPlace
      cases atPlace
      by_cases alone : next count place = place
      · rw [alone, update_self] at atNext
        cases atNext
        rw [alone]
        omega
      · rw [update_of_ne alone] at atNext
        exact after atNext
    · rw [update_of_ne here] at atPlace
      by_cases follows : next count place = index
      · rw [follows, update_self] at atNext
        cases atNext
        rw [follows]
        exact carried.behind follows atPlace
      · rw [update_of_ne follows] at atNext
        exact probing.growth placeBound atPlace atNext

theorem Probing.replace (probing : Probing count ideal slots) (bound : index < count)
    (found : slots index = some first) (same : ideal entry = ideal first) :
    Probing count ideal (update slots index (some entry)) := by
  have equal : ∀ place, probeLength count ideal entry place =
      probeLength count ideal first place := by
    intro place
    rw [probeLength, probeLength, same]
  refine probing.put ⟨bound, ?_, ?_⟩ ?_
  · intro earlier earlierBound closer
    rw [equal, equal] at closer
    exact probing.reach bound found earlierBound closer
  · intro earlier other follows atEarlier
    subst follows
    rw [equal]
    exact probing.growth (lt_of_next_lt bound) atEarlier found
  · intro second atNext
    rw [equal]
    exact probing.growth bound found atNext

variable (ideal_lt : ∀ entry, ideal entry < count)

include ideal_lt

theorem carried_start (entry : α) : Carried count ideal slots entry (ideal entry) := by
  refine ⟨ideal_lt entry, ?_, ?_⟩
  · intro earlier _ closer
    simp [probeLength] at closer
  · intro earlier first _ _
    simp [probeLength]

theorem reach_next (bound : index < count)
    (reach : ∀ {earlier}, earlier < count → probeLength count ideal entry earlier <
        probeLength count ideal entry index →
      slots earlier ≠ none) (filled : slots index ≠ none) (stopBound : stop < count)
    (free : slots stop = none) :
    probeLength count ideal entry (next count index) = probeLength count ideal entry index + 1 ∧
      ∀ {earlier}, earlier < count → probeLength count ideal entry earlier <
          probeLength count ideal entry (next count index) → slots earlier ≠ none := by
  have upTo : ∀ {earlier}, earlier < count → probeLength count ideal entry earlier ≤
        probeLength count ideal entry index →
      slots earlier ≠ none := by
    intro earlier earlierBound notFarther
    by_cases same : probeLength count ideal entry earlier = probeLength count ideal entry index
    · have here : earlier = index := distance_injective (ideal_lt entry) earlierBound bound same
      rw [here]
      exact filled
    · exact reach earlierBound (by omega)
  have farther : probeLength count ideal entry index < probeLength count ideal entry stop := by
    by_contra notFarther
    exact upTo stopBound (Nat.le_of_not_lt notFarther) free
  have step : probeLength count ideal entry (next count index) =
      probeLength count ideal entry index + 1 :=
    distance_next (ideal_lt entry) (next_ne_of_distance_lt (ideal_lt entry) stopBound farther)
  refine ⟨step, ?_⟩
  intro earlier earlierBound closer
  exact upTo earlierBound (by omega)

theorem carried_next (bound : index < count)
    (reach : ∀ {earlier}, earlier < count → probeLength count ideal entry earlier <
        probeLength count ideal entry index →
      slots earlier ≠ none) (found : slots index = some first)
    (kept : probeLength count ideal entry index ≤ probeLength count ideal first index)
    (stopBound : stop < count) (free : slots stop = none) :
    probeLength count ideal entry (next count index) = probeLength count ideal entry index + 1 ∧
      Carried count ideal slots entry (next count index) := by
  obtain ⟨step, reachNext⟩ := reach_next ideal_lt bound reach (by simp [found]) stopBound free
  refine ⟨step, next_lt bound, reachNext, ?_⟩
  intro earlier other same atEarlier
  have here : earlier = index := next_injective same
  subst here
  rw [found] at atEarlier
  cases atEarlier
  omega

theorem Probing.put_free (probing : Probing count ideal slots)
    (carried : Carried count ideal slots entry index) (free : slots index = none) :
    Probing count ideal (update slots index (some entry)) := by
  apply probing.put carried
  intro second atNext
  rw [probing.after_free ideal_lt carried.bound free atNext]
  omega

/-- Exchanging the entry in hand for a richer one, which is in hand at the
next slot. -/
theorem Probing.exchange (probing : Probing count ideal slots)
    (carried : Carried count ideal slots entry index) (found : slots index = some first)
    (richer : probeLength count ideal first index < probeLength count ideal entry index)
    (stopBound : stop < count) (free : slots stop = none) :
    Probing count ideal (update slots index (some entry)) ∧
      probeLength count ideal first (next count index) = probeLength count ideal first index + 1 ∧
        Carried count ideal (update slots index (some entry)) first (next count index) := by
  constructor
  · apply probing.put carried
    intro second atNext
    have grown := probing.growth carried.bound found atNext
    omega
  · have apart : stop ≠ index := by
      rintro rfl
      simp [free] at found
    refine carried_next ideal_lt carried.bound ?_
      (update_self index (some entry) slots) (Nat.le_of_lt richer)
      stopBound (by simpa [apart] using free)
    intro earlier earlierBound closer
    have filled := probing.reach carried.bound found earlierBound closer
    by_cases here : earlier = index
    · simp [here]
    · simpa [here] using filled

end

section

variable {count : Nat} {ideal : α → Nat} {entry : α}

theorem Probing.open (probing : Probing count ideal slots) (bound : index < count)
    (found : slots index = some entry) : Hole count ideal (update slots index none) index := by
  have outside : ∀ {place other}, update slots index none place = some other →
        place ≠ index ∧ slots place = some other := by
    intro place other atPlace
    by_cases here : place = index
    · simp [here] at atPlace
    · exact ⟨here, by simpa [here] using atPlace⟩
  refine ⟨bound, by simp, ?_, ?_, ?_⟩
  · intro place other placeBound atPlace earlier earlierBound apart closer
    rw [update_of_ne apart]
    exact probing.reach placeBound (outside atPlace).2 earlierBound closer
  · intro place first second placeBound atPlace atNext
    exact probing.growth placeBound (outside atPlace).2 (outside atNext).2
  · intro earlier first second follows atEarlier atNext
    subst follows
    have before := probing.growth (lt_of_next_lt bound) (outside atEarlier).2 found
    have after := probing.growth bound found (outside atNext).2
    omega

variable (ideal_lt : ∀ entry, ideal entry < count)

include ideal_lt

/-- Where the slot behind the hole is free or holds an entry at its ideal
index, the hole is an ordinary free slot. -/
theorem Hole.close (opened : Hole count ideal slots hole)
    (stops : ∀ {entry}, slots (next count hole) = some entry →
      probeLength count ideal entry (next count hole) = 0) : Probing count ideal slots := by
  refine ⟨?_, opened.growth⟩
  intro index entry bound found earlier earlierBound closer
  by_cases atHole : earlier = hole
  · subst atHole
    have step : probeLength count ideal entry (next count earlier) =
        probeLength count ideal entry earlier + 1 :=
      distance_next (ideal_lt entry) (next_ne_of_distance_lt (ideal_lt entry) bound closer)
    obtain ⟨second, atNext, poorer⟩ :=
      poorer_back ideal_lt (probeLength count ideal entry earlier + 1) opened.growth bound found (by
          intro between betweenBound above below
          refine opened.reach bound found betweenBound ?_ below
          rintro rfl
          omega)
        (next_lt earlierBound) (by omega) (by omega)
    have zero := stops atNext
    omega
  · exact opened.reach bound found earlierBound atHole closer

theorem Hole.shift (opened : Hole count ideal slots hole)
    (found : slots (next count hole) = some entry)
    (pos : probeLength count ideal entry (next count hole) ≠ 0) :
    probeLength count ideal entry (next count hole) = probeLength count ideal entry hole + 1 ∧
      Hole count ideal (update (update slots hole (some entry)) (next count hole) none)
        (next count hole) := by
  have continues : next count hole ≠ ideal entry := by
    intro same
    simp [probeLength, same] at pos
  have step : probeLength count ideal entry (next count hole) =
      probeLength count ideal entry hole + 1 :=
    distance_next (ideal_lt entry) continues
  have apart : hole ≠ next count hole := by
    intro same
    rw [← same, opened.empty] at found
    cases found
  have cases : ∀ {place other}, update (update slots hole (some entry))
        (next count hole) none place = some other →
      place ≠ next count hole ∧ (place = hole ∧ other = entry ∨
          place ≠ hole ∧ slots place = some other) := by
    intro place other atPlace
    by_cases behind : place = next count hole
    · simp [behind] at atPlace
    rw [update_of_ne behind] at atPlace
    by_cases here : place = hole
    · subst here
      rw [update_self] at atPlace
      cases atPlace
      exact ⟨behind, .inl ⟨rfl, rfl⟩⟩
    · rw [update_of_ne here] at atPlace
      exact ⟨behind, .inr ⟨here, atPlace⟩⟩
  refine ⟨step, next_lt opened.bound, by simp, ?_, ?_, ?_⟩
  · intro place other placeBound atPlace earlier earlierBound behind closer
    rw [update_of_ne behind]
    by_cases atHole : earlier = hole
    · simp [atHole]
    · rw [update_of_ne atHole]
      rcases cases atPlace with ⟨_, ⟨rfl, rfl⟩ | ⟨_, old⟩⟩
      · exact opened.reach (next_lt opened.bound) found earlierBound atHole (by omega)
      · exact opened.reach placeBound old earlierBound atHole closer
  · intro place first second placeBound atPlace atNext
    rcases cases atNext with ⟨notBehind, ⟨follows, rfl⟩ | ⟨_, oldNext⟩⟩
    · rcases cases atPlace with ⟨_, ⟨rfl, rfl⟩ | ⟨_, old⟩⟩
      · exact absurd follows.symm apart
      · have across := opened.across follows old found
        rw [follows]
        omega
    · rcases cases atPlace with ⟨_, ⟨rfl, rfl⟩ | ⟨_, old⟩⟩
      · exact absurd rfl notBehind
      · exact opened.growth placeBound old oldNext
  · intro earlier first second follows atEarlier atNext
    have here : earlier = hole := next_injective follows
    subst here
    rcases cases atEarlier with ⟨_, ⟨_, rfl⟩ | ⟨never, _⟩⟩
    · rcases cases atNext with ⟨_, ⟨closes, rfl⟩ | ⟨_, old⟩⟩
      · rw [closes]
        omega
      · have grown := opened.growth (next_lt opened.bound) found old
        omega
    · exact absurd rfl never

end

end MixUpOS.Library.RobinHood
