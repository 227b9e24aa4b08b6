import MixUpOS.Library.LinkedSequences

/-!
# Doubly linked lists threaded through a store

An intrusive list keeps its links inside the objects it links.  Here the
links live in a store indexed by `κ`, and a node `node : ι` owns the cell
`key node`.  A distinguished node value `null` ends the list in both
directions.

`IsList store head list` says that following the links from `head` visits
exactly `list` and that every back link is right.  The three pointer
operations `pushFront`, `popFront` and `unlink` are then specified by what
they do to the visited list.
-/

namespace MixUpOS.Library

/-- The two links one node of an intrusive list keeps. -/
@[ext] structure Link (ι : Type) where
  nextIndex : ι
  prevIndex : ι
deriving DecidableEq, Repr

namespace IntrusiveList

open LinkedSequences

variable {ι κ : Type}

section

variable [DecidableEq ι] [DecidableEq κ] (key : ι → κ) (null : ι)

def setNext (store : κ → Link ι) (node value : ι) : κ → Link ι :=
  Function.update store (key node) { store (key node) with nextIndex := value }

def setPrev (store : κ → Link ι) (node value : ι) : κ → Link ι :=
  Function.update store (key node) { store (key node) with prevIndex := value }

/-- The store after linking `node` in front of the list starting at `head`. -/
def pushFront (store : κ → Link ι) (head node : ι) : κ → Link ι :=
  let patched := if head = null then store else setPrev key store head node
  Function.update patched (key node) ⟨head, null⟩

/-- The new head and the store after dropping the first node. -/
def popFront (store : κ → Link ι) (head : ι) : ι × (κ → Link ι) :=
  let next := (store (key head)).nextIndex
  (next, if next = null then store else setPrev key store next null)

/-- The new head and the store after taking `node` out of its list.  The
links of `node` are read again after each write, as a reference to the cell
would read them. -/
def unlink (store : κ → Link ι) (head node : ι) : ι × (κ → Link ι) :=
  let forward :=
    if (store (key node)).prevIndex = null then store
    else setNext key store (store (key node)).prevIndex (store (key node)).nextIndex
  let backward :=
    if (forward (key node)).nextIndex = null then forward
    else setPrev key forward (forward (key node)).nextIndex (forward (key node)).prevIndex
  let newHead :=
    if head = node then (backward (key node)).nextIndex else head
  (newHead, Function.update backward (key node) ⟨null, null⟩)

end

section

variable (key : ι → κ) (null : ι)

/-- Following the links from `head`, where the first back link must be
`prev`, visits exactly the given nodes. -/
def Linked (store : κ → Link ι) : ι → ι → List ι → Prop
  | _, head, [] => head = null
  | prev, head, node :: rest =>
    head = node ∧ node ≠ null ∧ (store (key node)).prevIndex = prev ∧
      Linked store node (store (key node)).nextIndex rest

/-- A well-formed list: links in both directions, and no two nodes sharing
a cell. -/
structure IsList (store : κ → Link ι) (head : ι) (list : List ι) : Prop where
  linked : Linked key null store null head list
  distinct : (list.map key).Nodup

end

variable {key : ι → κ} {null : ι} {store : κ → Link ι}
variable {head node : ι} {list after : List ι}

theorem Linked.congr (linked : Linked key null store prev head list)
    (agree : ∀ node ∈ list, other (key node) = store (key node)) :
    Linked key null other prev head list := by
  induction list generalizing prev head with
  | nil => exact linked
  | cons first rest ih =>
    obtain ⟨headEq, notNull, prevEq, tail⟩ := linked
    have firstAgrees := agree first List.mem_cons_self
    refine ⟨headEq, notNull, by rw [firstAgrees]; exact prevEq, ?_⟩
    rw [firstAgrees]
    exact ih tail (List.forall_mem_cons.mp agree).2

theorem IsList.congr (isList : IsList key null store head list)
    (agree : ∀ node ∈ list, other (key node) = store (key node)) :
    IsList key null other head list :=
  ⟨isList.linked.congr agree, isList.distinct⟩

theorem isList_nil : IsList key null store null [] := ⟨rfl, List.nodup_nil⟩

theorem IsList.nodup (isList : IsList key null store head list) : list.Nodup :=
  isList.distinct.of_map _

theorem IsList.head_eq_null_iff (isList : IsList key null store head list) :
    head = null ↔ list = [] := by
  cases list with
  | nil =>
    have headNull : head = null := isList.linked
    simp [headNull]
  | cons first rest =>
    obtain ⟨headEq, notNull, _, _⟩ := isList.linked
    simp [headEq, notNull]

theorem Linked.head_cases (linked : Linked key null store prev head list) :
    head = null ∧ list = [] ∨ head ≠ null ∧ head ∈ list := by
  cases list with
  | nil => exact .inl ⟨linked, rfl⟩
  | cons first rest =>
    obtain ⟨headEq, notNull, _, _⟩ := linked
    exact .inr ⟨headEq ▸ notNull, headEq ▸ List.mem_cons_self⟩

section

variable [DecidableEq ι]

theorem linked_iff (distinct : list.Nodup) : Linked key null store prev head list ↔
      head = list.head?.getD null ∧ ∀ node ∈ list, node ≠ null ∧
        (store (key node)).nextIndex = (successor list node).getD null ∧
        (store (key node)).prevIndex = (successor list.reverse node).getD prev := by
  induction list generalizing prev head with
  | nil => simp [Linked]
  | cons first rest ih =>
    obtain ⟨fresh, restDistinct⟩ := List.nodup_cons.mp distinct
    have notBehind : first ∉ rest.reverse := by simpa using fresh
    have firstBack : successor (first :: rest).reverse first = none := by
      rw [List.reverse_cons, successor_append_cons notBehind]
      rfl
    have tail : (∀ node ∈ rest, node ≠ null ∧
          (store (key node)).nextIndex = (successor (first :: rest) node).getD null ∧
          (store (key node)).prevIndex = (successor (first :: rest).reverse node).getD prev) ↔
        ∀ node ∈ rest, node ≠ null ∧
          (store (key node)).nextIndex = (successor rest node).getD null ∧
          (store (key node)).prevIndex = (successor rest.reverse node).getD first := by
      refine forall₂_congr fun node member => ?_
      have apart : first ≠ node := fun same => fresh (same ▸ member)
      rw [successor, if_neg apart, List.reverse_cons, successor_concat notBehind
        (List.mem_reverse.mpr member) (List.nodup_reverse.mpr restDistinct), List.getLast?_reverse]
      simp only [head?_iff restDistinct member]
      cases successor rest.reverse node <;> simp
    rw [Linked, ih restDistinct, List.forall_mem_cons, firstBack]
    simp only [successor, if_true, List.head?_cons, Option.getD_some, Option.getD_none]
    tauto

section

variable (isList : IsList key null store head list)

include isList

theorem IsList.links (member : node ∈ list) : node ≠ null ∧
    (store (key node)).nextIndex = (successor list node).getD null ∧
    (store (key node)).prevIndex = (successor list.reverse node).getD null :=
  ((linked_iff isList.nodup).mp isList.linked).2 node member

theorem IsList.leads_iff (inList : ∀ found, target = some found → found ∈ list)
    (member : neighbor ∈ list) :
    target.getD null ≠ null ∧ key neighbor = key (target.getD null) ↔ target = some neighbor := by
  cases target with
  | none => simp
  | some found =>
    have foundMember := inList found rfl
    have sameKey : key neighbor = key found ↔ found = neighbor :=
      ⟨fun same => (List.inj_on_of_nodup_map isList.distinct member foundMember same).symm,
        fun same => by rw [same]⟩
    simp [(isList.links foundMember).1, sameKey]

variable (member : node ∈ list)

include member

theorem IsList.next_iff (neighborMember : neighbor ∈ list) :
    (store (key node)).nextIndex ≠ null ∧ key neighbor = key (store (key node)).nextIndex ↔
      successor list node = some neighbor := by
  rw [(isList.links member).2.1]
  exact isList.leads_iff (fun _ found => (successor_mem found).2) neighborMember

theorem IsList.prev_iff (neighborMember : neighbor ∈ list) :
    (store (key node)).prevIndex ≠ null ∧ key neighbor = key (store (key node)).prevIndex ↔
      successor list.reverse node = some neighbor := by
  rw [(isList.links member).2.2]
  exact isList.leads_iff (fun _ found => List.mem_reverse.mp (successor_mem found).2) neighborMember

theorem IsList.neighbors :
    ((store (key node)).nextIndex = null ∨ (store (key node)).nextIndex ∈ list) ∧
      ((store (key node)).prevIndex = null ∨ (store (key node)).prevIndex ∈ list) := by
  obtain ⟨_, next, prev⟩ := isList.links member
  rw [next, prev]
  constructor
  · cases found : successor list node with
    | none => exact .inl rfl
    | some neighbor => exact .inr (successor_mem found).2
  · cases found : successor list.reverse node with
    | none => exact .inl rfl
    | some neighbor => exact .inr (List.mem_reverse.mp (successor_mem found).2)

end

end

variable [DecidableEq κ]

theorem setNext_apply (value : ι) (cell : κ) :
    setNext key store node value cell = ⟨if cell = key node then value else (store cell).nextIndex,
        (store cell).prevIndex⟩ := by
  by_cases same : cell = key node <;> simp [setNext, same]

theorem setPrev_apply (value : ι) (cell : κ) :
    setPrev key store node value cell = ⟨(store cell).nextIndex,
        if cell = key node then value else (store cell).prevIndex⟩ := by
  by_cases same : cell = key node <;> simp [setPrev, same]

/-- Redirecting the back link of the first node changes only which
predecessor the list expects. -/
theorem Linked.setPrev_head (linked : Linked key null store prev head (node :: after))
    (distinct : ((node :: after).map key).Nodup) (value : ι) :
    Linked key null (setPrev key store node value) value head (node :: after) := by
  obtain ⟨headEq, notNull, _, tail⟩ := linked
  have outside : key node ∉ after.map key := (List.nodup_cons.mp (by simpa using distinct)).1
  refine ⟨headEq, notNull, by simp [setPrev], ?_⟩
  have sameNext : (setPrev key store node value (key node)).nextIndex =
        (store (key node)).nextIndex := by
    simp [setPrev]
  rw [sameNext]
  refine tail.congr ?_
  intro later member
  have differ : key later ≠ key node := by
    intro equality
    exact outside (equality ▸ List.mem_map_of_mem member)
  simp [setPrev, differ]

variable [DecidableEq ι]

theorem IsList.pushFront (isList : IsList key null store head list)
    (notNull : node ≠ null) (fresh : key node ∉ list.map key) :
    IsList key null (pushFront key null store head node) node (node :: list) := by
  have differ : ∀ later ∈ list, key later ≠ key node := by
    intro later member equality
    exact fresh (equality ▸ List.mem_map_of_mem member)
  refine ⟨⟨rfl, notNull, by simp [IntrusiveList.pushFront], ?_⟩, ?_⟩
  · have headCell : (IntrusiveList.pushFront key null store head node
          (key node)).nextIndex = head := by
      simp [IntrusiveList.pushFront]
    rw [headCell]
    cases list with
    | nil => exact isList.linked
    | cons first rest =>
      have firstNotNull : first ≠ null := isList.linked.2.1
      have headEq : head = first := isList.linked.1
      refine (isList.linked.setPrev_head isList.distinct node).congr ?_
      intro later member
      simp [IntrusiveList.pushFront, headEq, firstNotNull, differ later member]
  · simpa using List.nodup_cons.mpr ⟨fresh, isList.distinct⟩

theorem IsList.popFront (isList : IsList key null store head (node :: list)) :
    IsList key null (popFront key null store head).2 (popFront key null store head).1 list := by
  obtain ⟨headEq, notNull, _, tail⟩ := isList.linked
  subst headEq
  have tailDistinct : (list.map key).Nodup :=
    (List.nodup_cons.mp (by simpa using isList.distinct)).2
  cases list with
  | nil =>
    have nextNull : (store (key head)).nextIndex = null := tail
    simpa [IntrusiveList.popFront, nextNull] using isList_nil
  | cons second rest =>
    have nextEq : (store (key head)).nextIndex = second := tail.1
    have secondNotNull : second ≠ null := tail.2.1
    rw [nextEq] at tail
    simp only [IntrusiveList.popFront, nextEq, secondNotNull, if_false]
    exact ⟨tail.setPrev_head tailDistinct null, tailDistinct⟩

theorem unlink_apply (differ : cell ≠ key node) :
    (unlink key null store head node).2 cell = ⟨if (store (key node)).prevIndex ≠ null ∧
            cell = key (store (key node)).prevIndex
        then (store (key node)).nextIndex else (store cell).nextIndex,
       if (store (key node)).nextIndex ≠ null ∧ cell = key (store (key node)).nextIndex
        then (store (key node)).prevIndex else (store cell).prevIndex⟩ := by
  by_cases noPrev : (store (key node)).prevIndex = null <;>
    by_cases noNext : (store (key node)).nextIndex = null <;>
    simp [unlink, setNext_apply, setPrev_apply, noPrev, noNext, differ]

theorem unlink_head : (unlink key null store head node).1 =
      if head = node then (store (key node)).nextIndex else head := by
  by_cases noPrev : (store (key node)).prevIndex = null <;>
    by_cases noNext : (store (key node)).nextIndex = null <;>
    simp [unlink, setNext_apply, setPrev_apply, noPrev, noNext]

theorem IsList.unlink (isList : IsList key null store head list) (member : node ∈ list) :
    IsList key null (unlink key null store head node).2
      (unlink key null store head node).1 (list.erase node) := by
  have distinct := isList.nodup
  have reversed := List.nodup_reverse.mpr distinct
  have erased : list.erase node = list.filter (· ≠ node) := by
    rw [distinct.erase_eq_filter]
    exact List.filter_congr fun other _ => by simp [bne, beq_eq_decide]
  have headEq := ((linked_iff distinct).mp isList.linked).1
  refine ⟨(linked_iff (distinct.erase _)).mpr ⟨?_, ?_⟩,
    isList.distinct.sublist (List.erase_sublist.map key)⟩
  · rw [unlink_head, erased, head?_filter distinct, headEq, (isList.links member).2.1]
    cases list with
    | nil => cases member
    | cons first rest =>
      by_cases same : first = node <;> simp [same]
  · intro other otherMember
    obtain ⟨apart, inList⟩ := distinct.mem_erase_iff.mp otherMember
    obtain ⟨notNull, next, prev⟩ := isList.links inList
    have keyApart : key other ≠ key node := fun same =>
      apart (List.inj_on_of_nodup_map isList.distinct inList member same)
    have back : successor list.reverse node = some other ↔ successor list other = some node :=
      successor_reverse_iff distinct
    have forth : successor list node = some other ↔ successor list.reverse other = some node :=
      (successor_reverse_iff distinct).symm
    rw [unlink_apply keyApart, erased, ← List.filter_reverse,
      successor_filter distinct apart, successor_filter reversed apart]
    simp only [isList.next_iff member inList, isList.prev_iff member inList, back, forth]
    rw [next, prev, (isList.links member).2.1, (isList.links member).2.2]
    refine ⟨notNull, ?_, ?_⟩ <;> split_ifs <;> rfl

theorem IsList.pushFront_frame (isList : IsList key null store head list)
    (notNode : cell ≠ key node) (outside : cell ∉ list.map key) :
    IntrusiveList.pushFront key null store head node cell = store cell := by
  rcases isList.linked.head_cases with ⟨empty, _⟩ | ⟨nonempty, member⟩
  · simp [IntrusiveList.pushFront, empty, notNode]
  · have notHead : cell ≠ key head := by
      intro equality
      exact outside (equality ▸ List.mem_map_of_mem member)
    simp [IntrusiveList.pushFront, setPrev, nonempty, notNode, notHead]

theorem IsList.popFront_frame (isList : IsList key null store head (node :: list))
    (outside : cell ∉ list.map key) :
    (IntrusiveList.popFront key null store head).2 cell = store cell := by
  obtain ⟨headEq, _, _, tail⟩ := isList.linked
  subst headEq
  rcases tail.head_cases with ⟨noNext, _⟩ | ⟨hasNext, member⟩
  · simp [IntrusiveList.popFront, noNext]
  · have notNext : cell ≠ key (store (key head)).nextIndex := by
      intro equality
      exact outside (equality ▸ List.mem_map_of_mem member)
    simp [IntrusiveList.popFront, setPrev, hasNext, notNext]

theorem IsList.unlink_frame (isList : IsList key null store head list) (member : node ∈ list)
    (outside : cell ∉ list.map key) :
    (IntrusiveList.unlink key null store head node).2 cell = store cell := by
  have inside : ∀ {neighbor}, neighbor ∈ list → cell ≠ key neighbor :=
    fun neighborMember same => outside (same ▸ List.mem_map_of_mem neighborMember)
  obtain ⟨next, prev⟩ := isList.neighbors member
  have notNext : ¬((store (key node)).nextIndex ≠ null ∧ cell = key (store (key node)).nextIndex) :=
    fun both => inside (next.resolve_left both.1) both.2
  have notPrev : ¬((store (key node)).prevIndex ≠ null ∧ cell = key (store (key node)).prevIndex) :=
    fun both => inside (prev.resolve_left both.1) both.2
  rw [unlink_apply (inside member)]
  simp [notPrev, notNext]

end IntrusiveList

end MixUpOS.Library
