import Mathlib.Data.List.Nodup

/-!
# Doubly linked sequences with a head and a tail

The links of every node are kept in two functions.  `Listed links order` says
that they thread the nodes of `order`, one after the other and back.

It is stated node by node, through `successor`: what a node is followed by in
the list.  A change of the links is followed by comparing both sides at each
node.
-/

namespace MixUpOS.Library

open List

/-- The links of all nodes, and the ends of the sequence. -/
structure Links (ν : Type) where
  previous : ν → Option ν
  next : ν → Option ν
  head : Option ν
  tail : Option ν

namespace Links

variable {ν : Type} [DecidableEq ν]

def setPrevious (links : Links ν) (node : ν) (value : Option ν) : Links ν :=
  { links with previous := Function.update links.previous node value }

def setNext (links : Links ν) (node : ν) (value : Option ν) : Links ν :=
  { links with next := Function.update links.next node value }

def setHead (links : Links ν) (value : Option ν) : Links ν := { links with head := value }

def setTail (links : Links ν) (value : Option ν) : Links ν := { links with tail := value }

section

variable (links : Links ν) (node other : ν) (value : Option ν)

@[simp, grind =] theorem setPrevious_previous : (links.setPrevious node value).previous other =
      if other = node then value else links.previous other := by
  simp [setPrevious, Function.update_apply]

@[simp, grind =] theorem setPrevious_next :
    (links.setPrevious node value).next other = links.next other := rfl

@[simp, grind =] theorem setPrevious_head : (links.setPrevious node value).head = links.head := rfl

@[simp, grind =] theorem setPrevious_tail : (links.setPrevious node value).tail = links.tail := rfl

@[simp, grind =] theorem setNext_next : (links.setNext node value).next other =
      if other = node then value else links.next other := by
  simp [setNext, Function.update_apply]

@[simp, grind =] theorem setNext_previous :
    (links.setNext node value).previous other = links.previous other := rfl

@[simp, grind =] theorem setNext_head : (links.setNext node value).head = links.head := rfl

@[simp, grind =] theorem setNext_tail : (links.setNext node value).tail = links.tail := rfl

omit [DecidableEq ν]

@[simp, grind =] theorem setHead_previous :
    (links.setHead value).previous other = links.previous other := rfl

@[simp, grind =] theorem setHead_next : (links.setHead value).next other = links.next other := rfl

@[simp, grind =] theorem setHead_head : (links.setHead value).head = value := rfl

@[simp, grind =] theorem setHead_tail : (links.setHead value).tail = links.tail := rfl

@[simp, grind =] theorem setTail_previous :
    (links.setTail value).previous other = links.previous other := rfl

@[simp, grind =] theorem setTail_next : (links.setTail value).next other = links.next other := rfl

@[simp, grind =] theorem setTail_head : (links.setTail value).head = links.head := rfl

@[simp, grind =] theorem setTail_tail : (links.setTail value).tail = value := rfl

end

/-- The nodes that are visited from a start, unless there are too many. -/
def walk (follow : ν → Option ν) : Nat → Option ν → Option (List ν)
  | _, none => some []
  | 0, some _ => none
  | fuel + 1, some node =>
    (walk follow fuel (follow node)).map fun rest => node :: rest

end Links

namespace LinkedSequences

open Links

variable {ν : Type} [DecidableEq ν]

/-- What a node is followed by. -/
def successor : List ν → ν → Option ν
  | [], _ => none
  | first :: rest, node =>
    if first = node then rest.head? else successor rest node

section

variable {order after : List ν}

theorem successor_mem (follows : successor order node = some other) :
    node ∈ order ∧ other ∈ order := by
  induction order with
  | nil => cases follows
  | cons first rest ih =>
    rw [successor] at follows
    split_ifs at follows with same
    · subst same
      exact ⟨by simp, mem_cons_of_mem _ (mem_of_mem_head? follows)⟩
    · obtain ⟨inRest, otherInRest⟩ := ih follows
      exact ⟨mem_cons_of_mem _ inRest, mem_cons_of_mem _ otherInRest⟩

theorem successor_append_cons (fresh : node ∉ before) :
    successor (before ++ node :: after) node = after.head? := by
  induction before with
  | nil => simp [successor]
  | cons first rest ih =>
    have apart : first ≠ node := fun same => fresh (by simp [same])
    have notInRest : node ∉ rest := fun inRest => fresh (mem_cons_of_mem _ inRest)
    simp [successor, apart, ih notInRest]

theorem successor_map [DecidableEq μ] {rename : ν → μ} (injective : Function.Injective rename) :
    successor (order.map rename) (rename node) = (successor order node).map rename := by
  induction order with
  | nil => rfl
  | cons first rest ih =>
    by_cases same : first = node
    · simp [successor, same]
    · simp [successor, same, injective.eq_iff, ih]

section

variable (distinct : order.Nodup)

include distinct

theorem successor_split (follows : successor order node = some other) :
    ∃ before after, order = before ++ node :: other :: after := by
  obtain ⟨before, after, rfl⟩ := append_of_mem (successor_mem follows).1
  have fresh : node ∉ before := by
    intro member
    exact (disjoint_of_nodup_append distinct) member (by simp)
  rw [successor_append_cons fresh] at follows
  cases after with
  | nil => cases follows
  | cons first rest =>
    cases follows
    exact ⟨before, rest, rfl⟩

theorem successor_reverse (follows : successor order node = some other) :
    successor order.reverse other = some node := by
  obtain ⟨before, after, rfl⟩ := successor_split distinct follows
  have reversed : (before ++ node :: other :: after).reverse =
      after.reverse ++ other :: node :: before.reverse := by simp
  have fresh : other ∉ after.reverse := by
    have tail := (nodup_append.mp distinct).2.1
    simpa using (nodup_cons.mp (nodup_cons.mp tail).2).1
  rw [reversed, successor_append_cons fresh]
  rfl

theorem successor_reverse_iff :
    successor order.reverse other = some node ↔ successor order node = some other := by
  constructor
  · intro follows
    have back := successor_reverse (nodup_reverse.mpr distinct) follows
    rwa [reverse_reverse] at back
  · exact successor_reverse distinct

theorem successor_ne : successor order node ≠ some node := by
  intro follows
  obtain ⟨before, after, rfl⟩ := successor_split distinct follows
  have tail := (nodup_append.mp distinct).2.1
  simp at tail

theorem head?_iff (member : node ∈ order) :
    order.head? = some node ↔ successor order.reverse node = none := by
  obtain ⟨before, after, rfl⟩ := append_of_mem member
  have reversed : (before ++ node :: after).reverse =
      after.reverse ++ node :: before.reverse := by simp
  have fresh : node ∉ after.reverse := by
    have tail := (nodup_append.mp distinct).2.1
    simpa using (nodup_cons.mp tail).1
  rw [reversed, successor_append_cons fresh]
  cases before with
  | nil => simp
  | cons first rest =>
    have apart : first ≠ node := by
      rintro rfl
      have never := disjoint_of_nodup_append distinct
      exact never mem_cons_self mem_cons_self
    simp [apart]

end

private theorem filter_fresh (fresh : node ∉ order) : order.filter (· ≠ node) = order := by
  rw [filter_eq_self]
  intro candidate member
  have apart : candidate ≠ node := by
    rintro rfl
    exact fresh member
  simp [apart]

theorem successor_filter (distinct : order.Nodup) (apart : other ≠ node) :
    successor (order.filter (· ≠ node)) other =
      if successor order other = some node then successor order node
      else successor order other := by
  induction order with
  | nil => simp [successor]
  | cons first rest ih =>
    obtain ⟨fresh, distinctRest⟩ := nodup_cons.mp distinct
    have rule := ih distinctRest
    by_cases removed : first = node
    · subst removed
      have notNext : successor rest other ≠ some first :=
        fun follows => fresh (successor_mem follows).2
      simpa [successor, apart.symm, notNext] using rule
    · by_cases here : first = other
      · subst here
        cases rest with
        | nil => simp [successor, removed]
        | cons second others =>
          by_cases next : second = node
          · subst next
            have kept := filter_fresh (nodup_cons.mp distinctRest).1
            rw [filter_cons_of_pos (by simpa using removed), filter_cons_of_neg (by simp), kept]
            simp [successor, removed]
          · simp [successor, removed, next]
      · simpa [successor, removed, here] using rule

theorem head?_filter (distinct : order.Nodup) : (order.filter (· ≠ node)).head? =
      if order.head? = some node then successor order node
      else order.head? := by
  cases order with
  | nil => rfl
  | cons first rest =>
    by_cases removed : first = node
    · subst removed
      rw [filter_cons_of_neg (by simp), filter_fresh (nodup_cons.mp distinct).1]
      simp [successor]
    · simp [removed]

theorem successor_concat (fresh : added ∉ order) (member : node ∈ order) (distinct : order.Nodup) :
    successor (order ++ [added]) node =
      if order.getLast? = some node then some added
      else successor order node := by
  obtain ⟨before, after, rfl⟩ := append_of_mem member
  have notBefore : node ∉ before := by
    intro inBefore
    exact (disjoint_of_nodup_append distinct) inBefore (by simp)
  rw [append_assoc, cons_append, successor_append_cons notBefore, successor_append_cons notBefore]
  cases after with
  | nil => simp
  | cons first rest =>
    have apart : (before ++ node :: first :: rest).getLast? ≠ some node := by
      intro last
      have inRest : node ∈ first :: rest := by
        apply mem_of_getLast?
        simpa using last
      have tail := (nodup_append.mp distinct).2.1
      exact (nodup_cons.mp tail).1 inRest
    rw [if_neg apart]
    rfl

end

/-- The links thread the nodes in the given order. -/
structure Listed (links : Links ν) (order : List ν) : Prop where
  distinct : order.Nodup
  head : links.head = order.head?
  tail : links.tail = order.getLast?
  next : ∀ node ∈ order, links.next node = successor order node
  previous : ∀ node ∈ order, links.previous node = successor order.reverse node

namespace Listed

variable {links : Links ν} {order : List ν}

theorem nil (head : links.head = none) (tail : links.tail = none) : Listed links [] :=
  ⟨by simp, by simpa using head, by simpa using tail, by simp, by simp⟩

section

variable (listed : Listed links order)

include listed

theorem setNext_outside (outside : node ∉ order) (value : Option ν) :
    Listed (links.setNext node value) order := by
  refine ⟨listed.distinct, listed.head, listed.tail, ?_, listed.previous⟩
  intro member inOrder
  have apart : member ≠ node := fun same => outside (same ▸ inOrder)
  rw [setNext_next, if_neg apart, listed.next member inOrder]

theorem rename {rename : ν → ν} (injective : Function.Injective rename)
    (head : later.head = links.head.map rename) (tail : later.tail = links.tail.map rename)
    (next : ∀ node ∈ order, later.next (rename node) = (links.next node).map rename)
    (previous : ∀ node ∈ order, later.previous (rename node) = (links.previous node).map rename) :
    Listed later (order.map rename) := by
  refine ⟨listed.distinct.map injective, ?_, ?_, ?_, ?_⟩
  · simp [head, listed.head]
  · simp [tail, listed.tail]
  · intro renamed member
    obtain ⟨node, inOrder, rfl⟩ := mem_map.mp member
    rw [next node inOrder, listed.next node inOrder, successor_map injective]
  · intro renamed member
    obtain ⟨node, inOrder, rfl⟩ := mem_map.mp member
    rw [previous node inOrder, listed.previous node inOrder, ← map_reverse, successor_map injective]

theorem without (head : later.head =
      if links.head = some node then links.next node else links.head) (tail : later.tail =
      if links.tail = some node then links.previous node else links.tail) (member : node ∈ order)
    (next : ∀ other ∈ order, other ≠ node → later.next other =
      if links.next other = some node then links.next node
      else links.next other) (previous : ∀ other ∈ order, other ≠ node → later.previous other =
      if links.previous other = some node then links.previous node
      else links.previous other) : Listed later (order.filter (· ≠ node)) := by
  have reversed := nodup_reverse.mpr listed.distinct
  refine ⟨listed.distinct.filter _, ?_, ?_, ?_, ?_⟩
  · rw [head, head?_filter listed.distinct, listed.head, listed.next node member]
  · rw [tail, ← head?_reverse, ← filter_reverse, head?_filter reversed, listed.tail,
      listed.previous node member, head?_reverse]
  · intro other inRest
    obtain ⟨inOrder, apart⟩ := mem_filter.mp inRest
    have differ : other ≠ node := by simpa using apart
    rw [next other inOrder differ, successor_filter listed.distinct
      differ, listed.next other inOrder, listed.next node member]
  · intro other inRest
    obtain ⟨inOrder, apart⟩ := mem_filter.mp inRest
    have differ : other ≠ node := by simpa using apart
    rw [previous other inOrder differ, ← filter_reverse, successor_filter reversed differ,
      listed.previous other inOrder, listed.previous node member]

theorem concat (fresh : node ∉ order)
    (head : later.head = if links.head = none then some node else links.head)
    (tail : later.tail = some node) (nextOld : ∀ other ∈ order, later.next other =
      if links.tail = some other then some node else links.next other)
    (nextNew : later.next node = none)
    (previousOld : ∀ other ∈ order, later.previous other = links.previous other)
    (previousNew : later.previous node = links.tail) : Listed later (order ++ [node]) := by
  refine ⟨?_, ?_, by simp [tail], ?_, ?_⟩
  · rw [nodup_append]
    refine ⟨listed.distinct, by simp, ?_⟩
    rintro first inOrder second inNew rfl
    simp only [mem_singleton] at inNew
    exact fresh (inNew ▸ inOrder)
  · rw [head, listed.head]
    cases order with
    | nil | cons first rest => simp
  · intro other member
    rcases mem_append.mp member with inOrder | isNew
    · rw [nextOld other inOrder, successor_concat fresh inOrder listed.distinct, listed.tail,
        listed.next other inOrder]
    · rw [mem_singleton.mp isNew, nextNew, successor_append_cons fresh]
      rfl
  · intro other member
    rw [reverse_append, reverse_singleton, singleton_append, successor]
    rcases mem_append.mp member with inOrder | isNew
    · have apart : node ≠ other := by
        rintro rfl
        exact fresh inOrder
      rw [if_neg apart, previousOld other inOrder, listed.previous other inOrder]
    · rw [mem_singleton.mp isNew, if_pos rfl, previousNew, listed.tail, head?_reverse]

end

section

variable {node : ν} (listed : Listed links order)

include listed

section

variable (member : node ∈ order)

include member

theorem next_eq_some_iff (other : ν) : links.next node = some other ↔
    other ∈ order ∧ links.previous other = some node := by
  rw [listed.next node member]
  constructor
  · intro follows
    have otherMember := (successor_mem follows).2
    rw [listed.previous other otherMember]
    exact ⟨otherMember, (successor_reverse_iff listed.distinct).mpr follows⟩
  · intro ⟨otherMember, follows⟩
    rw [listed.previous other otherMember] at follows
    exact (successor_reverse_iff listed.distinct).mp follows

theorem previous_eq_some_iff (other : ν) : links.previous node = some other ↔
    other ∈ order ∧ links.next other = some node := by
  constructor
  · intro follows
    have otherMember : other ∈ order := by
      rw [listed.previous node member] at follows
      exact mem_reverse.mp (successor_mem follows).2
    exact ⟨otherMember, (listed.next_eq_some_iff otherMember node).mpr ⟨member, follows⟩⟩
  · intro ⟨otherMember, follows⟩
    exact ((listed.next_eq_some_iff otherMember node).mp follows).2

theorem next_ne : links.next node ≠ some node := by
  rw [listed.next node member]
  exact successor_ne listed.distinct

theorem previous_ne : links.previous node ≠ some node := by
  rw [listed.previous node member]
  exact successor_ne (nodup_reverse.mpr listed.distinct)

theorem head_eq_some_iff : links.head = some node ↔ links.previous node = none := by
  rw [listed.head, listed.previous node member]
  exact head?_iff listed.distinct member

theorem tail_eq_some_iff : links.tail = some node ↔ links.next node = none := by
  have back := head?_iff (nodup_reverse.mpr listed.distinct) (mem_reverse.mpr member)
  rw [head?_reverse, reverse_reverse] at back
  rw [listed.tail, listed.next node member]
  exact back

end

theorem head_mem (isHead : links.head = some node) : node ∈ order := by
  rw [listed.head] at isHead
  exact mem_of_mem_head? isHead

theorem tail_mem (isTail : links.tail = some node) : node ∈ order := by
  rw [listed.tail] at isTail
  exact mem_of_getLast? isTail

end

private theorem walk_rest {before : List ν} (distinct : order.Nodup)
    (follows : ∀ node ∈ order, follow node = successor order node) (split : order = before ++ rest)
    (bound : rest.length ≤ fuel) : walk follow fuel rest.head? = some rest := by
  induction rest generalizing fuel before with
  | nil =>
    cases fuel with
    | zero | succ fuel => rfl
  | cons first rest ih =>
    cases fuel with
    | zero => simp at bound
    | succ fuel =>
      have member : first ∈ order := by simp [split]
      have fresh : first ∉ before := by
        intro inBefore
        rw [split] at distinct
        exact (disjoint_of_nodup_append distinct) inBefore (by simp)
      have step : follow first = rest.head? := by
        rw [follows first member, split, successor_append_cons fresh]
      have remaining := @ih fuel (before ++ [first]) (by simp [split]) (by simpa using bound)
      simp [walk, step, remaining]

theorem walk_next (listed : Listed links order) (enough : order.length ≤ fuel) :
    walk links.next fuel links.head = some order := by
  rw [listed.head]
  exact walk_rest listed.distinct listed.next (nil_append _).symm enough

theorem walk_previous (listed : Listed links order) (enough : order.length ≤ fuel) :
    walk links.previous fuel links.tail = some order.reverse := by
  rw [listed.tail, ← head?_reverse]
  refine walk_rest (nodup_reverse.mpr listed.distinct) ?_ (nil_append _).symm
    (by simpa using enough)
  intro node member
  exact listed.previous node (by simpa using member)

end Listed

end LinkedSequences

end MixUpOS.Library
