import MixUpOS.AK.RedBlackTreeOrder
import MixUpOS.AK.RedBlackTreeRemove

/-!
# The red-black tree invariant

`insert` leaves the color of a node as it is unless the tree is empty, and the
parent of a node as it is if the tree is empty.  So the invariant is kept by
nodes that have not been in a tree, and not by all nodes that have been
removed from one.
-/

namespace MixUpOS.AK

open Library Library.LinkedTrees List

variable {K : Type}

section

variable {links : NodeLinks K} {size : Nat}

/-- The node is linked below the frame, and repairs are made if the frame is
not the root. -/
theorem attach_repaired (holds : Holds links (frame :: path) (.node .leaf node data .leaf))
    (red : data.color = .red) (balanced : Balanced (Path.plug (frame :: path) .leaf) .black height)
    (enough : (frame :: path).length < size) :
    ∃ later whole wholeHeight, (if (links.cells frame.id).parent.isSome then
        links.insertFixups size node else some links) = some later ∧
      Holds later [] whole ∧ Balanced whole .black wholeHeight ∧
      Keeps (frame :: path) (.node .leaf node data .leaf) [] whole := by
  obtain ⟨pathColor, color, below, balancedPath, leafBalanced, _⟩ := balanced.unplug
  cases leafBalanced
  have single : Balanced (.node .leaf node data .leaf) .red 0 := .red red .leaf .leaf
  have upwards := (Holds.up.mp holds).parent_root (Tree.root_join ..)
  rw [upwards]
  cases path with
  | nil =>
    have black : pathColor = .black := by
      cases balancedPath with
      | red colored siblingBalanced inside upper => exact absurd rfl inside
      | black => rfl
    subst black
    obtain ⟨rootColor, wholeHeight, plugged, rootBlack⟩ := balancedPath.plug single black_fits
    rw [rootBlack (.inl (cons_ne_nil _ _))] at plugged
    refine ⟨links, _, wholeHeight, rfl, holds.whole, plugged, rfl, ?_⟩
    intro first second spine
    exact ⟨by simp, .inl spine.plug⟩
  | cons upper path =>
    exact insertFixups_repairing ⟨holds, rfl, 0, pathColor, single, balancedPath⟩ enough

theorem minimum_place {minimum : Nat}
    (first : (Path.plug (frame :: path) .leaf).ids.head? = some minimum)
    (holds : Holds links [] whole)
    (keeps : Keeps (frame :: path) (.node .leaf node data .leaf) [] whole) :
    some (if (links.cells minimum).leftChild = some node then node
      else minimum) = whole.ids.head? := by
  have listed := keeps.sameEntries.trans entries_place
  rw [Path.plug] at listed
  rw [ids_eq_map, entries_place_leaf] at first
  rw [ids_eq_map, listed]
  by_cases leftmost : entriesBefore (frame :: path) = []
  · have sides := entriesBefore_eq_nil_iff.mp leftmost
    rw [leftmost] at first ⊢
    have side := sides frame mem_cons_self
    have here : frame.id = minimum := by
      rw [entriesAfter, Path.after, side] at first
      exact Option.some.inj first
    have spine : Spine node minimum (frame :: path) (.node .leaf node data .leaf) :=
      ⟨sides, .inr ⟨data, frame, path, rfl, rfl, here⟩⟩
    have starts := (keeps.sameSpine node minimum spine).plug
    rw [if_pos (starts.leftChild holds)]
    rfl
  · obtain ⟨entry, rest, same⟩ := exists_cons_of_ne_nil leftmost
    rw [same] at first ⊢
    have none : (links.cells minimum).leftChild = none := by
      refine leftChild_first holds ?_
      rw [ids_eq_map, listed, same]
      exact first
    rw [none]
    exact first.symm

end

section

variable {links : NodeLinks K} {node bound height : Nat} {data : NodeData K} {path : NodePath K}
  {left right child : NodeTree K} {side : Side} {color pathColor : Color}

theorem removeNode_holds (holds : Holds links path (.join side child node data .leaf))
    (balancedPath : BalancedPath path pathColor height)
    (balanced : Balanced (.join side child node data .leaf) color height)
    (fits : Fits pathColor color)
    (others : child ≠ .leaf ∨ path ≠ []) (enough : path.length < bound) :
    ∃ later whole wholeHeight, RedBlackTree.removeNode bound links node = some later ∧
        Holds later [] whole ∧ Balanced whole .black wholeHeight ∧
      entries whole = entries (path.plug child) := by
  obtain ⟨childEq, holdsChild, sameCell⟩ := NodeLinks.unlink_holds holds
  have colored : (links.unlink node).1.color node = data.color := by
    rw [NodeLinks.color, sameCell]
    exact color_of_holds holds
  have upwards : ((links.unlink node).1.cells node).parent = Path.parent none path := by
    rw [sameCell, holds.read, Cell.parent_ofSide]
  have same := balanced.color_eq
  cases color with
  | red =>
    obtain ⟨_, childBalanced, leafBalanced⟩ := balanced_join_red.mp balanced
    obtain ⟨rootColor, wholeHeight, plugged, rootBlack⟩ :=
      balancedPath.plug childBalanced fits_black
    rw [rootBlack (.inr rfl)] at plugged
    refine ⟨_, _, wholeHeight, ?_, holdsChild.whole, plugged, rfl⟩
    rw [RedBlackTree.removeNode]
    simp [colored, same]
  | black =>
    obtain ⟨below, childColor, leafColor, rfl, _, childBalanced, _⟩ :=
      balanced_join_black.mp balanced
    have lacks : Lacks child below := by
      cases childColor with
      | black => exact .inl childBalanced
      | red =>
        obtain ⟨first, place, placeData, second, rfl⟩ := childBalanced.exists_join .left (.inl rfl)
        obtain ⟨red, firstBalanced, secondBalanced⟩ := balanced_join_red.mp childBalanced
        exact .inr ⟨rootRed_join red, .black rfl firstBalanced secondBalanced⟩
    obtain ⟨later, whole, wholeHeight, repaired, holdsWhole, wholeBalanced,
      listed⟩ := removeFixups_lacking
        ⟨holdsChild, below, pathColor, lacks, balancedPath⟩ others enough
    refine ⟨later, whole, wholeHeight, ?_, holdsWhole, wholeBalanced, listed⟩
    rw [RedBlackTree.removeNode]
    simp [colored, same, childEq, upwards, repaired]

/-- The entries of the tree without the node at the focus. -/
def entriesWithout (path : NodePath K) (left right : NodeTree K) : List (Nat × K) :=
  entriesBefore path ++ (entries left ++ entries right) ++ entriesAfter path

theorem entries_focus :
    entries (path.plug (.node left node data right)) = (entriesBefore path ++ entries left) ++
        (node, data.key) :: (entries right ++ entriesAfter path) := by
  rw [entries_plug, entries_node]
  simp

theorem entriesWithout_eq : entriesWithout path left right = (entriesBefore path ++ entries left) ++
        (entries right ++ entriesAfter path) := by
  rw [entriesWithout]
  simp

/-- What `ensureOneChild` gives to `removeNode`. -/
structure Removable (links : NodeLinks K) (node bound : Nat)
    (remaining : List (Nat × K)) (side : Side) (path : NodePath K)
    (child : NodeTree K) (data : NodeData K) : Prop where
  holds : Holds links path (.join side child node data .leaf)
  balanced : ∃ pathColor color height, BalancedPath path pathColor height ∧
    Balanced (.join side child node data .leaf) color height ∧
    Fits pathColor color
  remaining : entries (path.plug child) = remaining
  enough : path.length < bound

theorem removable_oneChild (holds : Holds links path (.join side child node data .leaf))
    (balanced : Balanced (path.plug (.join side child node data .leaf)) .black height)
    (enough : (path.plug (.join side child node data .leaf)).ids.length < bound)
    (remaining : entries left ++ entries right = entries child) :
    Removable links node bound (entriesWithout path left right) side path child data := by
  obtain ⟨pathColor, color, below, balancedPath, treeBalanced, fits, _⟩ := balanced.unplug
  refine ⟨holds, ⟨pathColor, color, below, balancedPath, treeBalanced, fits⟩, ?_, ?_⟩
  · rw [entriesWithout, remaining, entries_plug]
  · exact (Nat.le_of_add_right_le length_le_ids).trans_lt enough

theorem removable_relink (holds : Holds links path (.node left node data
      (lower.plug (.node .leaf successor other rest))))
    (sides : ∀ frame ∈ lower, frame.side = .left)
    (balanced : Balanced (path.plug (.node left node data
      (lower.plug (.node .leaf successor other rest)))) .black height)
    (enough : (path.plug (.node left node data
      (lower.plug (.node .leaf successor other rest)))).ids.length < bound) :
    Removable (links.relink node successor) node bound (entriesWithout path left
        (lower.plug (.node .leaf successor other rest))) .right
      (lower ++ ⟨.right, successor, { other with color := data.color },
        left⟩ :: path) rest { data with color := other.color } := by
  have whole : path.plug (.node left node data (lower.plug (.node .leaf successor other rest))) =
      Path.plug (lower ++ ⟨.right, node, data, left⟩ :: path)
        (.node .leaf successor other rest) := by
    rw [Path.plug_append]
    rfl
  rw [whole] at balanced enough
  obtain ⟨pathColor, color, below, balancedPath, treeBalanced, fits, _⟩ := balanced.unplug
  have short := (Nat.le_of_add_right_le length_le_ids).trans_lt enough
  have relinked := NodeLinks.relink_holds holds
  refine ⟨?_, ⟨pathColor, color, below, balancedPath.replace rfl rfl, ?_,
    fits⟩, ?_, by simpa using short⟩
  · have focused : Holds (links.relink node successor)
        (⟨.right, successor, { other with color := data.color }, left⟩ :: path) (lower.plug
            (.node .leaf node { data with color := other.color } rest)) :=
      Holds.up.mpr relinked
    exact Holds.plug.mpr focused
  · cases treeBalanced with
    | red colored leafBalanced restBalanced => exact .red colored leafBalanced restBalanced
    | black colored leafBalanced restBalanced => exact .black colored leafBalanced restBalanced
  · have lowered : entries (lower.plug rest) = entries rest ++ entriesAfter lower := by
      rw [entries_plug, entriesBefore_eq_nil_iff.mpr sides, nil_append]
    rw [entriesWithout, entries_first sides, Path.plug_append, Path.plug,
      entries_plug, entries_join, lowered]

theorem ensureOneChild_holds (holds : Holds links path (.node left node data right))
    (balanced : Balanced (path.plug (.node left node data right)) .black height)
    (enough : (path.plug (.node left node data right)).ids.length < bound) :
    ∃ later side laterPath child laterData,
      RedBlackTree.ensureOneChild bound links node = some later ∧
      Removable later node bound (entriesWithout path left right) side
        laterPath child laterData := by
  have here : Holds links path (.join .left left node data right) := holds
  have read := here.read
  cases right with
  | leaf =>
    refine ⟨links, .left, path, left, data, ?_,
      @removable_oneChild _ _ _ _ _ _ _ _ _ _ .left holds balanced enough (append_nil _)⟩
    rw [RedBlackTree.ensureOneChild, read]
    simp [Cell.ofSide, Tree.root]
  | node first child childData second =>
    cases left with
    | leaf =>
      refine ⟨links, .right, path, _, data, ?_,
        @removable_oneChild _ _ _ _ _ _ _ _ _ _ .right holds balanced enough (nil_append _)⟩
      rw [RedBlackTree.ensureOneChild, read]
      simp [Cell.ofSide, Tree.root]
    | node third place placeData fourth =>
      have rightShorter :
          (LinkedTrees.Tree.node first child childData second).ids.length ≤ bound := by
        have parts := length_le_ids.trans_lt enough
        simp only [Tree.ids, Tree.listing, length_append, length_cons] at parts ⊢
        omega
      obtain ⟨lower, last, lastData, rest, same, sides, evaluated⟩ :=
        successor_descend holds rfl rightShorter
      rw [same] at holds balanced enough ⊢
      refine ⟨_, .right, _, rest, _, ?_, removable_relink holds sides balanced enough⟩
      rw [RedBlackTree.ensureOneChild, read]
      simp [Cell.ofSide, Tree.root, evaluated]

end

variable [LinearOrder K]

namespace RedBlackTree

variable {tree : RedBlackTree K} {shape : NodeTree K} {node : Nat}

/-- The tree has the given shape, which is sorted and balanced. -/
structure Valid (tree : RedBlackTree K) (shape : NodeTree K) : Prop where
  holds : Holds tree.links [] shape
  sorted : Sorted shape
  balanced : ∃ height, Balanced shape .black height
  size : tree.size = shape.ids.length
  minimum : tree.minimum = shape.ids.head?

/-- What `insert` needs of a node. -/
structure Insertable (tree : RedBlackTree K) (node : Nat) : Prop where
  childless : ∀ side, (tree.links.cells node).child side = none
  red : tree.links.root ≠ none → tree.links.color node = .red
  orphan : tree.links.root = none → (tree.links.cells node).parent = none

theorem insert_empty (valid : Valid tree .leaf) (insertable : tree.Insertable node) :
    ∃ later, tree.insert node = some later ∧ Valid later (.node .leaf node
        ⟨.black, (tree.links.cells node).data.key⟩ .leaf) := by
  have root : tree.links.root = none := valid.holds.rooted
  have content : (tree.links.setColor .black node).cells node =
      ⟨none, none, none, ⟨.black, (tree.links.cells node).data.key⟩⟩ := by
    have orphan := insertable.orphan root
    have left := insertable.childless .left
    have right := insertable.childless .right
    simp only [Cell.child] at left right
    simp [NodeLinks.setColor, Links.modify, Cell.withData, orphan, left, right]
  refine ⟨⟨⟨some node, (tree.links.setColor .black node).cells⟩, 1, some node⟩, ?_, ?_⟩
  · rw [insert, root]
    cases tree.size <;> rfl
  · refine ⟨Holds.single rfl content, ?_, ⟨1, .black rfl .leaf .leaf⟩, rfl, rfl⟩
    exact pairwise_singleton _ _

theorem insert_nonempty (valid : Valid tree (Path.plug (frame :: path) .leaf))
    (holds : Holds tree.links (frame :: path) .leaf)
    (outside : node ∉ (Path.plug (frame :: path) .leaf).ids) (insertable : tree.Insertable node)
    (separates : Separates (tree.links.cells node).data.key (frame :: path))
    (found : searchParent tree.links (tree.links.cells node).data.key
      tree.size tree.links.root none = some (some frame.id)) :
    ∃ later laterShape, tree.insert node = some later ∧ Valid later laterShape ∧
      entries laterShape = entriesBefore (frame :: path) ++
        (node, (tree.links.cells node).data.key) :: entriesAfter (frame :: path) := by
  obtain ⟨height, balanced⟩ := valid.balanced
  have sameIds : (Path.plug (frame :: path) .leaf).ids.Perm (Path.ids (frame :: path)) := by
    simpa [Tree.listing] using @Path.ids_plug_perm _ _ (frame :: path) (.leaf : NodeTree K)
  have nonempty : tree.links.root ≠ none := by
    obtain ⟨id, rooted, _⟩ := Path.entry_cons_mem none frame path
    rw [holds.rooted, Tree.root, rooted]
    exact Option.some_ne_none id
  have attached := NodeLinks.attach_holds holds (fun listed => outside (sameIds.mem_iff.mpr listed))
    insertable.childless
  have enough : (frame :: path).length < tree.size + 1 := by
    rw [valid.size]
    exact Nat.lt_succ_of_le (Nat.le_of_add_right_le length_le_ids)
  obtain ⟨later, whole, wholeHeight, repaired, holdsLater, wholeBalanced,
    keeps⟩ := attach_repaired attached (insertable.red nonempty) balanced enough
  have listed : entries whole = entriesBefore (frame :: path) ++
      (node, (tree.links.cells node).data.key) ::
        entriesAfter (frame :: path) := keeps.sameEntries.trans entries_place
  have shorterEntries := @entries_place_leaf K (frame :: path)
  obtain ⟨minimum, first⟩ : ∃ minimum,
      (Path.plug (frame :: path) .leaf).ids.head? = some minimum := by
    rw [← Option.isSome_iff_exists, isSome_head?, ← length_pos_iff, sameIds.length_eq]
    exact Nat.succ_pos _
  refine ⟨⟨later, tree.size + 1, some (if (later.cells minimum).leftChild =
    some node then node else minimum)⟩, whole, ?_, ?_, listed⟩
  · have read : (tree.links.cells frame.id).data = frame.data := by
      rw [holds.read_parent, Cell.data_ofSide]
    have below : insertBelow (tree.size + 1) tree.links node frame.id = some later := by
      rw [insertBelow, read, ← separates.side frame path rfl]
      exact repaired
    have oldMinimum : tree.minimum = some minimum := valid.minimum.trans first
    simp [insert, found, below, oldMinimum]
  · refine ⟨holdsLater, ?_, ⟨wholeHeight, wholeBalanced⟩, ?_, minimum_place first holdsLater keeps⟩
    · have sorted := valid.sorted
      rw [Sorted, shorterEntries] at sorted
      obtain ⟨beforeSorted, afterSorted, across⟩ := pairwise_append.mp sorted
      rw [Sorted, listed]
      refine pairwise_append.mpr ⟨beforeSorted, ?_, ?_⟩
      · refine pairwise_cons.mpr ⟨?_, afterSorted⟩
        intro entry isAfter
        exact le_of_lt (separates.after entry isAfter)
      · intro first isBefore second isSecond
        obtain rfl | isAfter := mem_cons.mp isSecond
        · exact separates.before first isBefore
        · exact across first isBefore second isAfter
    rw [valid.size, ids_eq_map, ids_eq_map, listed, shorterEntries]
    simp only [length_map, length_append, length_cons]
    omega

theorem insert_valid (valid : Valid tree shape) (outside : node ∉ shape.ids)
    (insertable : tree.Insertable node) :
    ∃ later laterShape, tree.insert node = some later ∧
      Valid later laterShape ∧ laterShape.ids.Perm (node :: shape.ids) := by
  obtain ⟨place, found, holds, same, separates⟩ := searchParent_holds valid.holds valid.sorted
    (⟨by simp [entriesBefore, Path.before], by simp [entriesAfter, Path.after], by simp⟩ :
      Separates (tree.links.cells node).data.key []) (Nat.le_refl _)
  subst same
  cases place with
  | nil =>
    obtain ⟨later, inserted, laterValid⟩ := insert_empty valid insertable
    exact ⟨later, _, inserted, laterValid, .refl _⟩
  | cons frame path =>
    rw [← valid.size] at found
    have rooted : tree.links.root = (Path.plug (frame :: path) .leaf).root := valid.holds.rooted
    rw [← rooted] at found
    obtain ⟨later, laterShape, inserted, laterValid, listed⟩ :=
      insert_nonempty valid holds outside insertable separates found
    refine ⟨later, laterShape, inserted, laterValid, ?_⟩
    rw [ids_eq_map, ids_eq_map, listed, entries_place_leaf]
    simp only [map_append, map_cons]
    exact perm_middle

section

variable {path : NodePath K} {left right : NodeTree K} {data : NodeData K}

section

variable (valid : Valid tree (path.plug (.node left node data right)))

include valid

theorem not_mem_before : node ∉ (entriesBefore path ++ entries left).map Prod.fst := by
  have distinct := valid.holds.distinct
  rw [ids_eq_map, entries_focus, map_append] at distinct
  intro listed
  exact (nodup_append.mp distinct).2.2 node listed node mem_cons_self rfl

theorem Valid.focus : Holds tree.links path (.node left node data right) := by
  have focused := Holds.plug.mpr valid.holds
  rwa [append_nil] at focused

theorem nextMinimum_eq :
    tree.nextMinimum node = some ((entriesWithout path left right).map Prod.fst).head? := by
  have first := valid.minimum
  have notBefore := not_mem_before valid
  have size := length_le_ids.trans_eq valid.size.symm
  have rightShorter : right.ids.length ≤ tree.size + 1 := by
    simp only [Tree.ids, Tree.listing, length_append, length_cons] at size ⊢
    omega
  have next := successor_holds valid.focus rightShorter (by omega)
  rw [ids_eq_map, entries_focus] at first
  rw [entriesWithout_eq, nextMinimum]
  cases atFront : entriesBefore path ++ entries left with
  | nil =>
    rw [atFront] at first
    have here : tree.minimum = some node := first
    rw [if_pos here]
    exact next
  | cons entry before =>
    rw [atFront] at first notBefore
    have differ : tree.minimum ≠ some node := by
      rw [first]
      intro same
      exact notBefore (by simp [Option.some.inj same])
    rw [if_neg differ, first]
    rfl

theorem remove_only (only : tree.size = 1) : entriesWithout path left right = [] := by
  have size := valid.size
  rw [ids_eq_map, entries_focus] at size
  rw [entriesWithout_eq, ← length_eq_zero_iff]
  simp only [length_map, length_append, length_cons] at size ⊢
  omega

end

theorem remove_valid (valid : Valid tree shape) (inside : node ∈ shape.ids) :
    ∃ later laterShape, tree.remove node = some later ∧
      Valid later laterShape ∧ laterShape.ids = shape.ids.erase node := by
  obtain ⟨path, left, data, right, rfl⟩ := Path.exists_plug inside
  have remaining : (entriesWithout path left right).map Prod.fst =
      (path.plug (.node left node data right)).ids.erase node := by
    rw [ids_eq_map, entries_focus, map_append, map_cons,
      erase_append_right _ (not_mem_before valid), erase_cons_head, entriesWithout_eq, map_append]
  have sorted : (entriesWithout path left right).Pairwise
      fun first second => first.2 ≤ second.2 := by
    have whole := valid.sorted
    rw [Sorted, entries_focus] at whole
    rw [entriesWithout_eq]
    exact whole.sublist ((sublist_cons_self ..).append_left _)
  by_cases only : tree.size = 1
  · have empty := remove_only valid only
    rw [empty] at remaining
    refine ⟨⟨{ tree.links with root := none }, 0, none⟩, .leaf, ?_, ?_, remaining⟩
    · rw [remove, if_pos only]
    · exact ⟨Holds.leaf rfl, Pairwise.nil, ⟨0, .leaf⟩, rfl, rfl⟩
  · obtain ⟨height, balanced⟩ := valid.balanced
    obtain ⟨links, side, laterPath, child, laterData, ensured, removable⟩ :=
      ensureOneChild_holds valid.focus balanced (Nat.lt_succ_of_le (Nat.le_of_eq valid.size.symm))
    obtain ⟨pathColor, color, below, balancedPath, treeBalanced, fits⟩ := removable.balanced
    have others : child ≠ .leaf ∨ laterPath ≠ [] := by
      by_contra neither
      rw [not_or, not_not, not_not] at neither
      have empty := removable.remaining
      rw [neither.1, neither.2, Path.plug, entries_leaf] at empty
      rw [← empty] at remaining
      have length := congrArg length remaining
      rw [length_erase_of_mem inside, ← valid.size] at length
      have pos := length_pos_of_mem inside
      rw [← valid.size] at pos
      simp only [map_nil, length_nil] at length
      omega
    obtain ⟨later, whole, wholeHeight, removed, holdsLater, wholeBalanced,
      listed⟩ := removeNode_holds removable.holds balancedPath treeBalanced
        fits others removable.enough
    rw [removable.remaining] at listed
    refine ⟨⟨later, tree.size - 1,
      ((entriesWithout path left right).map Prod.fst).head?⟩, whole, ?_, ?_,
      ?_⟩
    · rw [remove, if_neg only, nextMinimum_eq valid, ensured]
      simp [removed]
    · refine ⟨holdsLater, ?_, ⟨wholeHeight, wholeBalanced⟩, ?_, ?_⟩
      · rw [Sorted, listed]
        exact sorted
      · rw [ids_eq_map, listed, remaining, length_erase_of_mem inside, valid.size]
      · rw [ids_eq_map, listed]
    · rw [ids_eq_map, listed, remaining]

end

end RedBlackTree

end MixUpOS.AK
