import MixUpOS.AK.RedBlackTreeInsert

/-!
# Searching and following the order

Where `insert` puts a node, and which node `successor` returns, in terms of
the order of the nodes.
-/

namespace MixUpOS.AK

open Library.LinkedTrees List

variable {K : Type}

/-- The nodes and keys before and after the focus. -/
def entriesBefore (path : NodePath K) : List (Nat × K) := path.before fun id data => (id, data.key)

def entriesAfter (path : NodePath K) : List (Nat × K) := path.after fun id data => (id, data.key)

section

variable {path : NodePath K} {id : Nat}

theorem entries_plug :
    entries (path.plug tree) = entriesBefore path ++ entries tree ++ entriesAfter path :=
  Path.listing_plug

theorem entries_node :
    entries (.node left id data right) = entries left ++ (id, data.key) :: entries right := rfl

theorem ids_eq_map : tree.ids = (entries tree).map Prod.fst := by
  induction tree with
  | leaf => rfl
  | node left id data right leftIh rightIh =>
    have leftIds : left.listing (fun id _ => id) = (entries left).map Prod.fst := leftIh
    have rightIds : right.listing (fun id _ => id) = (entries right).map Prod.fst := rightIh
    rw [entries_node, map_append, map_cons, Tree.ids, Tree.listing, leftIds, rightIds]

theorem entriesBefore_eq_nil_iff :
    entriesBefore path = [] ↔ ∀ frame ∈ path, frame.side = .left := by
  induction path with
  | nil => simp [entriesBefore, Path.before]
  | cons frame path ih =>
    obtain ⟨side, id, data, sibling⟩ := frame
    rw [entriesBefore] at ih ⊢
    cases side with
    | left => simpa [Path.before] using ih
    | right => simp [Path.before]

theorem entries_place : entries (path.plug (.node .leaf id data .leaf)) =
      entriesBefore path ++ (id, data.key) :: entriesAfter path := by
  rw [entries_plug]
  simp [entries, Tree.listing]

theorem entries_place_leaf :
    entries (path.plug .leaf) = entriesBefore path ++ entriesAfter path := by
  rw [entries_plug]
  simp

theorem length_le_ids : path.length + tree.ids.length ≤ (path.plug tree).ids.length := by
  rw [Path.ids_plug_perm.length_eq, length_append]
  induction path with
  | nil => exact Nat.le_refl _
  | cons frame path ih =>
    simp only [Path.ids, length_cons, length_append]
    omega

end

section

variable [LinearOrder K] {key : K}

/-- Everything before is not above the key, everything after is above it, and
the closest frame is on the side that the key is. -/
structure Separates (key : K) (path : NodePath K) : Prop where
  before : ∀ entry ∈ entriesBefore path, entry.2 ≤ key
  after : ∀ entry ∈ entriesAfter path, key < entry.2
  side : ∀ frame rest, path = frame :: rest →
    frame.side = if key < frame.data.key then .left else .right

def Sorted (tree : NodeTree K) : Prop :=
  (entries tree).Pairwise fun first second => first.2 ≤ second.2

theorem Sorted.node {path : NodePath K} {id : Nat}
    (sorted : Sorted (path.plug (.node left id data right))) :
    (∀ entry ∈ entries left, entry.2 ≤ data.key) ∧ ∀ entry ∈ entries right, data.key ≤ entry.2 := by
  rw [Sorted, entries_plug] at sorted
  have inner := (pairwise_append.mp (pairwise_append.mp sorted).1).2.1
  obtain ⟨_, rightSorted, across⟩ := pairwise_append.mp inner
  constructor
  · intro entry listed
    exact across entry listed (id, data.key) (by simp)
  · intro entry listed
    exact (pairwise_cons.mp rightSorted).1 entry listed

section

variable {id : Nat}

theorem Separates.goLeft (separates : Separates key path) (lower : key < data.key)
    (rightBeyond : ∀ entry ∈ entries right, data.key ≤ entry.2) :
    Separates key (⟨.left, id, data, right⟩ :: path) where
  before := separates.before
  after := by
    intro entry listed
    obtain rfl | listed := mem_cons.mp listed
    · exact lower
    · obtain listed | listed := mem_append.mp listed
      · exact lt_of_lt_of_le lower (rightBeyond entry listed)
      · exact separates.after entry listed
  side := by
    intro frame rest same
    cases same
    exact (if_pos lower).symm

theorem Separates.goRight (separates : Separates key path) (notLower : ¬ key < data.key)
    (leftBelow : ∀ entry ∈ entries left, entry.2 ≤ data.key) :
    Separates key (⟨.right, id, data, left⟩ :: path) where
  before := by
    have above : data.key ≤ key := le_of_not_gt notLower
    intro entry listed
    obtain listed | listed := mem_append.mp listed
    · obtain listed | listed := mem_append.mp listed
      · exact separates.before entry listed
      · exact le_trans (leftBelow entry listed) above
    · obtain rfl := mem_singleton.mp listed
      exact above
  after := separates.after
  side := by
    intro frame rest same
    cases same
    exact (if_neg notLower).symm

end

theorem searchParent_holds {tree : NodeTree K} (holds : Holds links path tree)
    (sorted : Sorted (path.plug tree)) (separates : Separates key path)
    (enough : tree.ids.length ≤ bound) :
    ∃ place, RedBlackTree.searchParent links key bound tree.root
        (Path.parent none path) = some (Path.parent none place) ∧
      Holds links place .leaf ∧ place.plug .leaf = path.plug tree ∧ Separates key place := by
  induction tree generalizing path bound with
  | leaf =>
    refine ⟨path, ?_, holds, rfl, separates⟩
    cases bound <;> rfl
  | node left id data right leftIh rightIh =>
    have here : Holds links path (.join .left left id data right) := holds
    have read := here.read
    obtain ⟨leftBelow, rightBeyond⟩ := sorted.node
    have lengths : left.ids.length + 1 + right.ids.length ≤ bound := by
      simp only [Tree.ids, Tree.listing, length_append, length_cons] at enough ⊢
      omega
    obtain ⟨bound, rfl⟩ : ∃ smaller, bound = smaller + 1 := ⟨bound - 1, by omega⟩
    rw [Tree.root, RedBlackTree.searchParent, read]
    by_cases lower : key < data.key
    · rw [Cell.data_ofSide, if_pos lower]
      exact leftIh here.toNear sorted (separates.goLeft lower rightBeyond) (by omega)
    · rw [Cell.data_ofSide, if_neg lower]
      exact rightIh here.toFar sorted (separates.goRight lower leftBelow) (by omega)

end

section

variable {links : NodeLinks K}

theorem descend_holds (holds : Holds links path tree)
    (focused : tree.root = some node) (enough : tree.ids.length ≤ bound) :
    ∃ lower last data rest, tree = Path.plug lower (.node .leaf last data rest) ∧
      (∀ frame ∈ lower, frame.side = .left) ∧ links.descend .left bound node = some last := by
  induction tree generalizing path node bound with
  | leaf => cases focused
  | node left id data right leftIh rightIh =>
    obtain rfl : id = node := Option.some.inj focused
    have here : Holds links path (.join .left left id data right) := holds
    have read := here.read
    have lengths : left.ids.length + 1 ≤ bound := by
      simp only [Tree.ids, Tree.listing, length_append, length_cons] at enough ⊢
      omega
    obtain ⟨bound, rfl⟩ : ∃ smaller, bound = smaller + 1 := ⟨bound - 1, by omega⟩
    cases left with
    | leaf =>
      refine ⟨[], id, data, right, rfl, by simp, ?_⟩
      rw [NodeLinks.descend, read]
      rfl
    | node first child childData second =>
      obtain ⟨lower, last, lastData, rest, same, sides, evaluated⟩ :=
        leftIh here.toNear rfl (Nat.le_of_succ_le_succ lengths)
      refine ⟨lower ++ [⟨.left, id, data, right⟩], last, lastData, rest, ?_, ?_, ?_⟩
      · rw [Path.plug_append, ← same]
        rfl
      · intro frame listed
        obtain listed | listed := mem_append.mp listed
        · exact sides frame listed
        · obtain rfl := mem_singleton.mp listed
          rfl
      · rw [NodeLinks.descend, read]
        exact evaluated

theorem entries_first {rest : NodeTree K} (sides : ∀ frame ∈ lower, frame.side = .left) :
    entries (lower.plug (.node .leaf last data rest)) =
      (last, data.key) :: (entries rest ++ entriesAfter lower) := by
  rw [entries_plug, entriesBefore_eq_nil_iff.mpr sides]
  rfl

theorem leftChild_first (holds : Holds links path tree) (first : tree.ids.head? = some node) :
    (links.cells node).leftChild = none := by
  cases tree with
  | leaf => cases first
  | node left root rootData right =>
    obtain ⟨lower, last, data, rest, same, sides, _⟩ := descend_holds holds rfl (Nat.le_refl _)
    rw [same] at holds
    rw [same, ids_eq_map, entries_first sides] at first
    obtain rfl : last = node := Option.some.inj first
    have focused : Holds links (lower ++ path)
        (.join .left .leaf last data rest) := Holds.plug.mpr holds
    rw [focused.read]
    rfl

/-- Going up from the right leads to the node after the focus. -/
theorem ascend_holds (holds : Holds links path tree)
    (focused : tree.root = some node) (enough : path.length < bound) :
    links.ascend .right bound node (Path.parent none path) =
      some ((entriesAfter path).map Prod.fst).head? := by
  induction path generalizing tree node bound with
  | nil =>
    obtain ⟨bound, rfl⟩ : ∃ smaller, bound = smaller + 1 := ⟨bound - 1, by omega⟩
    rfl
  | cons frame path ih =>
    obtain ⟨bound, rfl⟩ : ∃ smaller, bound = smaller + 1 := ⟨bound - 1, by omega⟩
    have read := holds.read_parent
    have differ := holds.sibling_root_ne focused
    have atParent := Holds.up.mp holds
    have upwards := atParent.parent_root (Tree.root_join ..)
    obtain ⟨side, parent, data, sibling⟩ := frame
    rw [Path.parent_cons, NodeLinks.ascend]
    cases side with
    | left =>
      rw [if_neg]
      · rfl
      · rw [read]
        exact differ
    | right =>
      rw [if_pos, upwards]
      · exact ih atParent (Tree.root_join ..)
          (by simp only [length_cons] at enough; omega)
      · rw [read]
        exact focused

theorem successor_descend (holds : Holds links path (.node left node data right))
    (focused : right.root = some child) (enough : right.ids.length ≤ bound) :
    ∃ lower last lastData rest, right = Path.plug lower (.node .leaf last lastData rest) ∧
      (∀ frame ∈ lower, frame.side = .left) ∧ links.successor bound node = some (some last) := by
  have here : Holds links path (.join .left left node data right) := holds
  obtain ⟨lower, last, lastData, rest, same, sides, evaluated⟩ :=
    descend_holds here.toFar focused enough
  refine ⟨lower, last, lastData, rest, same, sides, ?_⟩
  have read : (links.cells node).child .right = some child := by
    rw [here.read]
    exact focused
  rw [NodeLinks.successor, NodeLinks.neighbor, read]
  exact congrArg (Option.map some) evaluated

theorem successor_holds (holds : Holds links path (.node left node data right))
    (enough : right.ids.length ≤ bound) (enoughAbove : path.length < bound) :
    links.successor bound node =
      some ((entries right ++ entriesAfter path).map Prod.fst).head? := by
  cases right with
  | leaf =>
    have here : Holds links path (.join .left left node data .leaf) := holds
    have read : (links.cells node).child .right = none := by
      rw [here.read]
      rfl
    have upwards : (links.cells node).parent = Path.parent none path := by
      rw [here.read]
      rfl
    rw [NodeLinks.successor, NodeLinks.neighbor, read, upwards]
    exact ascend_holds holds rfl enoughAbove
  | node first child childData second =>
    obtain ⟨lower, last, lastData, rest, same, sides, evaluated⟩ :=
      successor_descend holds rfl enough
    rw [evaluated, same, entries_first sides]
    rfl

end

end MixUpOS.AK
