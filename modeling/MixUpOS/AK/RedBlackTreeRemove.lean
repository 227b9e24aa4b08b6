import MixUpOS.AK.RedBlackTreeInsert

/-!
# The repairs after a removal

`remove_fixups` works on a subtree that lacks a black node on every way down.
A round gives the lack to the parent, or ends it by rotations.  The sibling of
such a subtree is never empty.
-/

namespace MixUpOS.AK

open Library Library.LinkedTrees NodeLinks

variable {K : Type}

def RootRed (tree : NodeTree K) : Prop :=
  ∃ left id data right, tree = .node left id data right ∧ data.color = .red

/-- One black node is missing, and it is the root if the root is red. -/
def Lacks (tree : NodeTree K) (height : Nat) : Prop :=
  Balanced tree .black height ∨ RootRed tree ∧ Balanced (recolor .black tree) .black (height + 1)

/-- The focus lacks a black node, and everything else is in order. -/
structure Lacking (links : NodeLinks K) (path : NodePath K) (tree : NodeTree K) : Prop where
  holds : Holds links path tree
  balanced : ∃ height color, Lacks tree height ∧ BalancedPath path color (height + 1)

section

variable {links : NodeLinks K} {side : Side} {path : NodePath K} {tree near far : NodeTree K}
  {parent : Nat} {data other : NodeData K} {height : Nat}

theorem rootRed_join (colored : data.color = .red) : RootRed (.join side near parent data far) := by
  cases side with
  | left => exact ⟨near, parent, data, far, rfl, colored⟩
  | right => exact ⟨far, parent, data, near, rfl, colored⟩

/-- A node of the given color, with children of the given height, may be put
below the path. -/
def Above (color : Color) (path : NodePath K) (height : Nat) : Prop :=
  (color = .red ∧ path ≠ [] ∧ BalancedPath path .black height) ∨ (color = .black ∧ ∃ upperColor,
      BalancedPath path upperColor (height + 1))

theorem BalancedPath.above (balanced : BalancedPath (frame :: path) pathColor height) :
    Above frame.data.color path height := by
  cases balanced with
  | red colored siblingBalanced inside upper => exact .inl ⟨colored, inside, upper⟩
  | black colored siblingBalanced upper => exact .inr ⟨colored, _, upper⟩

theorem BalancedPath.siblingBalanced (balanced : BalancedPath (frame :: path) pathColor height) :
    ∃ color, Balanced frame.sibling color height ∧ (color = .red → frame.data.color = .black) := by
  cases balanced with
  | red colored siblingBalanced inside upper =>
    exact ⟨.black, siblingBalanced, fun red => nomatch red⟩
  | black colored siblingBalanced upper => exact ⟨_, siblingBalanced, fun _ => colored⟩

theorem Above.plug (above : Above data.color path height)
    (nearBalanced : Balanced near .black height) (farBalanced : Balanced far .black height) :
    ∃ wholeHeight, Balanced (path.plug (.join side near parent data far)) .black wholeHeight := by
  obtain ⟨colored, inside, upper⟩ | ⟨colored, upperColor, upper⟩ := above
  · obtain ⟨rootColor, rootHeight, plugged, rootBlack⟩ := upper.plug
      (balanced_join_red.mpr ⟨colored, nearBalanced, farBalanced⟩) black_fits
    rw [rootBlack (.inl inside)] at plugged
    exact ⟨rootHeight, plugged⟩
  · obtain ⟨rootColor, rootHeight, plugged, rootBlack⟩ := upper.plug (balanced_join_black.mpr
        ⟨height, _, _, rfl, colored, nearBalanced, farBalanced⟩) fits_black
    rw [rootBlack (.inr rfl)] at plugged
    exact ⟨rootHeight, plugged⟩

section

variable (holds : Holds links path
  (.join side tree parent data (.join side near siblingNode other far)))

include holds

theorem settle_holds (balanced : Balanced tree .black height)
    (nearBalanced : Balanced near nearColor height) (farBalanced : Balanced far .red height)
    (above : Above data.color path (height + 1)) :
    ∃ later whole wholeHeight, links.settle side parent siblingNode = some (later, whole.root) ∧
      Holds later [] whole ∧ Balanced whole .black wholeHeight ∧
      entries whole = entries (path.plug (.join side tree parent data
        (.join side near siblingNode other far))) := by
  obtain ⟨first, farNode, farData, second, rfl⟩ := farBalanced.exists_join side (.inl rfl)
  obtain ⟨_, firstBalanced, secondBalanced⟩ := balanced_join_red.mp farBalanced
  have colored := color_of_holds holds
  have siblingColored := holds_setColor_far data.color holds
  have parentBlack := holds_setColor .black siblingColored
  have readSibling := parentBlack.toFar.read
  have farBlack := Holds.up.mp (holds_setColor_far .black parentBlack.toFar)
  obtain ⟨later, rotated, holdsLater⟩ :=
    @rotate_holds K _ path tree near _ side parent siblingNode _ _ (by simpa using farBlack)
  have lower : Balanced (.join side tree parent
      { data with color := .black } near) .black (height + 1) :=
    balanced_join_black.mpr ⟨height, _, _, rfl, rfl, balanced, nearBalanced⟩
  have outer : Balanced (.join side first farNode
      { farData with color := .black } second) .black (height + 1) :=
    balanced_join_black.mpr ⟨height, _, _, rfl, rfl, firstBalanced, secondBalanced⟩
  obtain ⟨wholeHeight, plugged⟩ := @Above.plug K side path _ _ siblingNode
    { other with color := data.color } _ above lower outer
  have holdsWhole := holdsLater.whole
  refine ⟨later, _, wholeHeight, ?_, holdsWhole, plugged, ?_⟩
  · simp only [settle, colored]
    simp [readSibling, rotated, holdsWhole.rooted]
  · refine entries_plug_congr ?_
    cases side <;> simp [entries_join]

/-- The sibling is rotated if its far child is black. -/
theorem turnSibling_holds (nearBalanced : Balanced near nearColor height)
    (farBalanced : Balanced far farColor height) (redNephew : nearColor = .red ∨ farColor = .red) :
    ∃ later laterNear laterNode laterData laterFar laterColor,
      links.turnSibling side parent siblingNode = some (later, laterNode) ∧
      Holds later path (.join side tree parent data
        (.join side laterNear laterNode laterData laterFar)) ∧
      Balanced laterNear laterColor height ∧ Balanced laterFar .red height ∧
      entries (.join side laterNear laterNode laterData laterFar) =
        entries (.join side near siblingNode other far) := by
  have atSibling := holds.toFar
  have readSibling := atSibling.read
  have farIsRed := isRed_of_balanced atSibling.toFar farBalanced
  cases farColor with
  | red =>
    refine ⟨links, near, siblingNode, other, far, nearColor, ?_, holds,
      nearBalanced, farBalanced, rfl⟩
    simp [turnSibling, readSibling, farIsRed]
  | black =>
    have nearRed : nearColor = .red := redNephew.resolve_right (by decide)
    subst nearRed
    obtain ⟨middle, nearNode, nearData, outer, rfl⟩ :=
      nearBalanced.exists_join side.other (.inl rfl)
    obtain ⟨_, middleBalanced, outerBalanced⟩ := balanced_join_red.mp nearBalanced
    have nearBlack := Holds.up.mp (holds_setColor .black atSibling.toNear)
    have siblingRed := holds_setColor .red nearBlack
    obtain ⟨later, rotated, holdsLater⟩ :=
      @rotate_holds K _ _ far middle outer side.other siblingNode
        nearNode _ _ (by simpa using siblingRed)
    have atParent := Holds.up.mp holdsLater
    have readParent := atParent.read
    refine ⟨later, outer, nearNode, { nearData with color := .black },
      .join side middle siblingNode { other with color := .red } far,
      .black, ?_, by simpa using atParent, outerBalanced, ?_, ?_⟩
    · simp [turnSibling, readSibling, farIsRed, rotated, readParent]
    · exact balanced_join_red.mpr ⟨rfl, middleBalanced, farBalanced⟩
    · cases side <;> simp [entries_join, Side.other]

end

theorem join_ne_leaf : Tree.join side near parent data far ≠ .leaf := by
  cases side <;> simp [Tree.join]

theorem borrow_lacking
    (holds : Holds links path (.join side tree parent data (.join side near siblingNode other far)))
    (balanced : Balanced tree .black height)
    (siblingBalanced : Balanced (.join side near siblingNode other far) .black (height + 1))
    (above : Above data.color path (height + 1)) :
    ∃ later laterPath laterTree,
      links.borrow side parent siblingNode = some (later, laterTree.root) ∧
      Lacking later laterPath laterTree ∧ laterTree ≠ .leaf ∧
      (laterPath = [] ∨ laterPath = path ∧ (data.color = .red → RootRed laterTree)) ∧
      entries (laterPath.plug laterTree) = entries (path.plug (.join side tree parent data
          (.join side near siblingNode other far))) := by
  obtain ⟨_, nearColor, farColor, same, siblingBlack, nearBalanced,
    farBalanced⟩ := balanced_join_black.mp siblingBalanced
  cases same
  have atSibling := holds.toFar
  have readSibling := atSibling.read
  have nearIsRed := isRed_of_balanced atSibling.toNear nearBalanced
  have farIsRed := isRed_of_balanced atSibling.toFar farBalanced
  by_cases redNephew : nearColor = .red ∨ farColor = .red
  · obtain ⟨turned, laterNear, laterNode, laterData, laterFar, laterColor,
      turnedEq, holdsTurned, laterNearBalanced, laterFarBalanced,
      sameSibling⟩ := turnSibling_holds holds nearBalanced farBalanced redNephew
    obtain ⟨later, whole, wholeHeight, settled, holdsWhole, wholeBalanced,
      sameEntries⟩ := settle_holds holdsTurned balanced laterNearBalanced laterFarBalanced above
    refine ⟨later, [], whole, ?_, ⟨holdsWhole, wholeHeight, .black,
      .inl wholeBalanced, .nil⟩, ?_, .inl rfl, ?_⟩
    · have someRed : (!(nearColor == Color.red) && !(farColor == Color.red)) = false := by
        obtain rfl | rfl := redNephew <;> simp
      simp [borrow, readSibling, nearIsRed, farIsRed, someRed, turnedEq, settled]
    · exact ne_leaf_of_entries (Tree.root_join ..) sameEntries
    · rw [Path.plug, sameEntries]
      exact entries_plug_congr (entries_join_congr sameSibling)
  · rw [not_or] at redNephew
    obtain rfl := Color.eq_black redNephew.1
    obtain rfl := Color.eq_black redNephew.2
    have siblingRed := holds_setColor_far .red holds
    have lowered : Balanced (.join side near siblingNode
        { other with color := .red } far) .red height :=
      balanced_join_red.mpr ⟨rfl, nearBalanced, farBalanced⟩
    refine ⟨_, path, _, ?_, ⟨siblingRed, ?_⟩, join_ne_leaf, .inr ⟨rfl, rootRed_join⟩, ?_⟩
    · simp [borrow, readSibling, nearIsRed, farIsRed]
    · obtain ⟨colored, inside, upper⟩ | ⟨colored, upperColor, upper⟩ := above
      · refine ⟨height, .black, .inr ⟨rootRed_join colored, ?_⟩, upper⟩
        rw [recolor_join]
        exact balanced_join_black.mpr ⟨height, _, _, rfl, rfl, balanced, lowered⟩
      · refine ⟨height + 1, upperColor, .inl ?_, upper⟩
        exact balanced_join_black.mpr ⟨height, _, _, rfl, colored, balanced, lowered⟩
    · refine entries_plug_congr ?_
      simp only [entries_join]

theorem removeFixupOn_lacking (holds : Holds links (⟨side, parent, data, sibling⟩ :: path) tree)
    (balanced : Balanced tree .black height)
    (balancedPath : BalancedPath (⟨side, parent, data, sibling⟩ :: path) pathColor (height + 1)) :
    ∃ later laterPath laterTree, links.removeFixupOn side parent = some (later, laterTree.root) ∧
      Lacking later laterPath laterTree ∧ laterTree ≠ .leaf ∧
      (laterPath.length ≤ path.length ∨ RootRed laterTree) ∧ entries (laterPath.plug laterTree) =
        entries (path.plug (.join side tree parent data sibling)) := by
  have readParent := holds.read_parent
  have above := balancedPath.above
  have atParent := Holds.up.mp holds
  obtain ⟨siblingColor, siblingBalanced, parentColored⟩ := balancedPath.siblingBalanced
  obtain ⟨near, siblingNode, siblingData, far, rfl⟩ :=
    siblingBalanced.exists_join side (.inr (Nat.succ_pos _))
  have siblingColored := color_of_holds atParent.toFar
  have siblingSame := siblingBalanced.color_eq
  cases siblingColor with
  | black =>
    obtain ⟨later, laterPath, laterTree, evaluated, lacking, nonempty, shorter, sameEntries⟩ :=
        borrow_lacking atParent balanced siblingBalanced above
    refine ⟨later, laterPath, laterTree, ?_, lacking, nonempty, .inl ?_, sameEntries⟩
    · simp [removeFixupOn, readParent, siblingColored, siblingSame, evaluated]
    · obtain rfl | ⟨rfl, _⟩ := shorter
      · exact Nat.zero_le _
      · exact Nat.le_refl _
  | red =>
    obtain ⟨_, nearBalanced, farBalanced⟩ := balanced_join_red.mp siblingBalanced
    obtain ⟨inner, nearNode, nearData, outer, rfl⟩ :=
      nearBalanced.exists_join side (.inr (Nat.succ_pos _))
    have siblingBlack := holds_setColor_far .black atParent
    have parentRed := holds_setColor .red siblingBlack
    obtain ⟨rotatedLinks, rotated, holdsRotated⟩ := rotate_holds parentRed
    have lowerHolds := holdsRotated.toNear
    have readLater := lowerHolds.read
    have upper : Above Color.red (⟨side, siblingNode,
        { siblingData with color := .black }, far⟩ :: path)
        (height + 1) := by
      refine .inl ⟨rfl, by simp, ?_⟩
      obtain ⟨red, _⟩ | ⟨_, upperColor, upper⟩ := above
      · rw [parentColored rfl] at red
        cases red
      · exact .black rfl farBalanced upper
    obtain ⟨later, laterPath, laterTree, evaluated, lacking, nonempty, shorter, sameEntries⟩ :=
        borrow_lacking lowerHolds balanced nearBalanced upper
    refine ⟨later, laterPath, laterTree, ?_, lacking, nonempty, ?_, ?_⟩
    · simp [removeFixupOn, readParent, siblingColored, siblingSame, rotated, readLater, evaluated]
    · obtain rfl | ⟨_, rootRed⟩ := shorter
      · exact .inl (Nat.zero_le _)
      · exact .inr (rootRed rfl)
    · rw [sameEntries, Path.plug]
      refine entries_plug_congr ?_
      cases side <;> simp [entries_join]

theorem removeFixup_eq (holds : Holds links (frame :: path) tree)
    (siblingNonempty : frame.sibling ≠ .leaf) :
    links.removeFixup tree.root frame.id = links.removeFixupOn frame.side frame.id := by
  have read := holds.read_parent
  obtain ⟨side, parent, data, sibling⟩ := frame
  cases side with
  | left =>
    rw [removeFixup, if_pos]
    rw [read]
    rfl
  | right =>
    rw [removeFixup, if_neg]
    rw [read]
    intro same
    cases sibling with
    | leaf => exact siblingNonempty rfl
    | node left siblingNode siblingData right => exact holds.sibling_root_ne same.symm rfl

end

section

variable {links : NodeLinks K} {tree : NodeTree K}

theorem RootRed.isRed (rootRed : RootRed tree)
    (holds : Holds links path tree) : links.isRed tree.root = true := by
  obtain ⟨left, id, data, right, rfl, colored⟩ := rootRed
  have here : Holds links path (.join .left left id data right) := holds
  rw [Tree.root, isRed, color_of_holds here, colored]
  rfl

theorem RootRed.not_balanced (rootRed : RootRed tree) : ¬ Balanced tree .black height := by
  intro balanced
  obtain ⟨left, id, data, right, rfl, colored⟩ := rootRed
  have black := @Balanced.color_eq K .left left right id data _ _ balanced
  rw [colored] at black
  cases black

/-- The loop may stop at a red node and at the root. -/
theorem Lacks.blacken (lacks : Lacks tree height)
    (balancedPath : BalancedPath path pathColor (height + 1)) (stops : RootRed tree ∨ path = []) :
    ∃ wholeHeight, Balanced (path.plug (recolor .black tree)) .black wholeHeight := by
  obtain balanced | ⟨_, blackened⟩ := lacks
  · obtain rootRed | rfl := stops
    · exact absurd balanced rootRed.not_balanced
    · exact balanced.blacken
  · obtain ⟨rootColor, wholeHeight, plugged, rootBlack⟩ := balancedPath.plug blackened fits_black
    rw [rootBlack (.inr rfl)] at plugged
    exact ⟨wholeHeight, plugged⟩

theorem removeFixupsLoop_stops (holds : Holds links path tree) (stops : RootRed tree ∨ path = []) :
    removeFixupsLoop (bound + 1) links tree.root
      (Path.parent none path) = some (links, tree.root) := by
  rw [removeFixupsLoop, if_neg]
  rintro ⟨notRoot, notRed⟩
  obtain rootRed | rfl := stops
  · rw [rootRed.isRed holds] at notRed
    cases notRed
  · exact notRoot holds.rooted.symm

/-- With enough rounds the loop returns, and it remains to blacken the
focus. -/
theorem removeFixupsLoop_lacking (bound : Nat) (lacking : Lacking links path tree)
    (nonempty : tree ≠ .leaf ∨ path ≠ [])
    (enough : path.length < bound ∨ RootRed tree ∧ 0 < bound) :
    ∃ later laterPath laterTree wholeHeight, removeFixupsLoop bound links tree.root
          (Path.parent none path) = some (later, laterTree.root) ∧
      laterTree ≠ .leaf ∧ Holds later laterPath laterTree ∧
      Balanced (laterPath.plug (recolor .black laterTree)) .black wholeHeight ∧
      entries (laterPath.plug laterTree) = entries (path.plug tree) := by
  induction bound generalizing links path tree with
  | zero => omega
  | succ bound ih =>
    obtain ⟨holds, height, pathColor, lacks, balancedPath⟩ := lacking
    by_cases stops : RootRed tree ∨ path = []
    · obtain ⟨wholeHeight, blackened⟩ := lacks.blacken balancedPath stops
      refine ⟨links, path, tree, wholeHeight,
        removeFixupsLoop_stops holds stops, ?_, holds, blackened, rfl⟩
      obtain ⟨_, _, _, _, rfl, _⟩ | rfl := stops
      · exact fun never => nomatch never
      · exact nonempty.resolve_right fun inside => inside rfl
    · rw [not_or] at stops
      obtain ⟨notRed, inside⟩ := stops
      obtain ⟨frame, path, rfl⟩ := List.exists_cons_of_ne_nil inside
      have balanced : Balanced tree .black height := by
        obtain balanced | ⟨rootRed, _⟩ := lacks
        · exact balanced
        · exact absurd rootRed notRed
      obtain ⟨later, laterPath, laterTree, evaluated, lackingLater,
        laterNonempty, shorter, sameEntries⟩ := removeFixupOn_lacking holds balanced balancedPath
      obtain ⟨last, lastPath, lastTree, wholeHeight, finished,
        lastNonempty, holdsLast, lastBalanced, lastEntries⟩ :=
          ih lackingLater (.inl laterNonempty) (by
            have shorterPath := enough.resolve_right fun red =>
              notRed red.1
            simp only [List.length_cons] at shorterPath
            obtain shorter | rootRed := shorter
            · exact .inl (by omega)
            · exact .inr ⟨rootRed, by omega⟩)
      refine ⟨last, lastPath, lastTree, wholeHeight, ?_, lastNonempty,
        holdsLast, lastBalanced, lastEntries.trans sameEntries⟩
      have isRed := isRed_of_balanced holds balanced
      have siblingNonempty : frame.sibling ≠ .leaf := by
        obtain ⟨siblingColor, siblingBalanced, _⟩ := balancedPath.siblingBalanced
        intro empty
        rw [empty] at siblingBalanced
        cases siblingBalanced
      have proceeds : tree.root ≠ links.root ∧
          links.isRed tree.root = false := ⟨holds.root_ne, isRed⟩
      have place : ∃ node, laterTree.root = some node := by
        cases laterTree with
        | leaf => exact absurd rfl laterNonempty
        | node left node data right => exact ⟨node, rfl⟩
      obtain ⟨node, rooted⟩ := place
      have upwards := lackingLater.holds.parent_root rooted
      rw [removeFixupsLoop, if_pos proceeds]
      simp only [Path.parent_cons, some_bind,
        removeFixup_eq holds siblingNonempty, evaluated, rooted, upwards]
      rw [rooted] at finished
      exact finished

theorem removeFixups_lacking (lacking : Lacking links path tree)
    (nonempty : tree ≠ .leaf ∨ path ≠ []) (enough : path.length < bound) :
    ∃ later whole wholeHeight,
      removeFixups bound links tree.root (Path.parent none path) = some later ∧
      Holds later [] whole ∧ Balanced whole .black wholeHeight ∧
      entries whole = entries (path.plug tree) := by
  obtain ⟨later, laterPath, laterTree, wholeHeight, evaluated, laterNonempty,
    holds, balanced, sameEntries⟩ := removeFixupsLoop_lacking bound lacking nonempty (.inl enough)
  cases laterTree with
  | leaf => exact absurd rfl laterNonempty
  | node left node data right =>
    have blackened := @holds_setColor K later laterPath left right .left node data .black holds
    refine ⟨_, _, wholeHeight, ?_, blackened.whole, balanced, ?_⟩
    · rw [removeFixups, evaluated]
      rfl
    · rw [← sameEntries]
      exact entries_plug_congr rfl

end

end MixUpOS.AK
