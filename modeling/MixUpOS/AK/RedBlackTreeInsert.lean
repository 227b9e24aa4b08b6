import MixUpOS.AK.RedBlackTreeBalance
import MixUpOS.AK.RedBlackTreeLinks

/-!
# The repairs after an insertion

A round of `insert_fixups` moves the only red node that may have a red parent
up, or rotates it away.  The first two nodes are followed as well, because
`insert` looks for a new minimum below the old one after the repairs.
-/

namespace MixUpOS.AK

open Library Library.LinkedTrees NodeLinks

variable {K : Type}

section

variable {links : NodeLinks K} {path : NodePath K} {side : Side} {near far : NodeTree K} {id : Nat}

theorem color_of_holds (holds : Holds links path (.join side near id data far)) :
    links.color id = data.color := by
  rw [color, holds.read, Cell.data_ofSide]

theorem isRed_of_balanced (holds : Holds links path tree)
    (balanced : Balanced tree treeColor height) : links.isRed tree.root = (treeColor == .red) := by
  cases tree with
  | leaf =>
    cases balanced
    rfl
  | node left id data right =>
    have colored := @color_of_holds K links path .left left right id data holds
    have same := @Balanced.color_eq K .left left right id data _ _ balanced
    rw [Tree.root, isRed, colored, same]

theorem holds_setColor_far (color : Color)
    (holds : Holds links path (.join outer near id data (.join side first node other second))) :
    Holds (links.setColor color node) path (.join outer near id data
        (.join side first node { other with color } second)) := by
  have written := Holds.up.mp (holds_setColor color holds.toFar)
  simpa using written

end

/-- The first node is a leaf of the tree, to the left of the second one. -/
def StartsWith (first second : Nat) : NodeTree K → Prop
  | .leaf => False
  | .node left id _ _ =>
    (∃ data, left = .node .leaf first data .leaf ∧ id = second) ∨ StartsWith first second left

/-- The focus is on the way to the first node, and the first node is in it. -/
def Spine (first second : Nat) (path : NodePath K) (tree : NodeTree K) : Prop :=
  (∀ frame ∈ path, frame.side = .left) ∧ (StartsWith first second tree ∨
      ∃ data frame upper, tree = .node .leaf first data .leaf ∧
        path = frame :: upper ∧ frame.id = second)

section

variable {path : NodePath K}

theorem Spine.up (spine : Spine first second (frame :: path) tree) :
    frame.side = .left ∧ StartsWith first second
      (.node tree frame.id frame.data frame.sibling) := by
  obtain ⟨sides, inside | ⟨data, lowest, upper, rfl, same, rfl⟩⟩ := spine
  · exact ⟨sides frame (by simp), .inr inside⟩
  · cases same
    exact ⟨sides frame (by simp), .inl ⟨data, rfl, rfl⟩⟩

theorem startsWith_plug (sides : ∀ frame ∈ path, frame.side = .left)
    (starts : StartsWith first second tree) : StartsWith first second (path.plug tree) := by
  induction path generalizing tree with
  | nil => exact starts
  | cons frame path ih =>
    have side := sides frame (by simp)
    refine ih (fun upper listed => sides upper (by simp [listed])) ?_
    rw [side]
    exact .inr starts

theorem Spine.plug (spine : Spine first second path tree) :
    StartsWith first second (path.plug tree) := by
  obtain ⟨sides, inside | ⟨data, lowest, upper, rfl, rfl, rfl⟩⟩ := spine
  · exact startsWith_plug sides inside
  · have side := sides lowest (by simp)
    rw [Path.plug, side]
    refine startsWith_plug (fun frame listed => sides frame (by simp [listed])) ?_
    exact .inl ⟨data, rfl, rfl⟩

theorem StartsWith.leftChild (starts : StartsWith first second tree)
    (holds : Holds links path tree) : (links.cells second).leftChild = some first := by
  induction tree generalizing path with
  | leaf => exact starts.elim
  | node left id data right leftIh rightIh =>
    have below : Holds links path (.join .left left id data right) := holds
    obtain ⟨_, rfl, rfl⟩ | starts := starts
    · rw [below.read]
      rfl
    · exact leftIh starts below.toNear

end

/-- The root of the focus is red, and everything else is in order. -/
structure Repairing (links : NodeLinks K) (node : Nat) (path : NodePath K)
    (tree : NodeTree K) : Prop where
  holds : Holds links path tree
  focused : tree.root = some node
  balanced : ∃ height color, Balanced tree .red height ∧ BalancedPath path color height

/-- The order of the nodes and its beginning are kept. -/
structure Keeps (path : NodePath K) (tree : NodeTree K)
    (laterPath : NodePath K) (laterTree : NodeTree K) : Prop where
  sameEntries : entries (laterPath.plug laterTree) = entries (path.plug tree)
  sameSpine : ∀ first second, Spine first second path tree → Spine first second laterPath laterTree

section

variable {links : NodeLinks K} {path : NodePath K} {data : NodeData K}

theorem Keeps.trans (earlier : Keeps first firstTree second secondTree)
    (later : Keeps second secondTree third thirdTree) : Keeps first firstTree third thirdTree where
  sameEntries := later.sameEntries.trans earlier.sameEntries
  sameSpine := by
    intro one two spine
    exact later.sameSpine one two (earlier.sameSpine one two spine)

theorem straighten_same (holds : Holds links (⟨side, parent, data, sibling⟩ ::
      ⟨side, grandParent, other, uncle⟩ :: path) tree) (focused : tree.root = some node) :
    ∃ later, links.straighten side node parent grandParent = some (later, node) ∧
      Holds later (⟨side, parent, { data with color := .black },
        .join side sibling grandParent { other with color := .red } uncle⟩ :: path) tree := by
  have readParent := holds.read_parent
  have notSibling := holds.sibling_root_ne focused
  have straight : (links.cells parent).child side.other ≠ some node := by
    rw [readParent]
    simpa using notSibling
  have atParent := Holds.up.mp holds
  have below := holds_setColor .black atParent
  have above := holds_setColor .red (Holds.up.mp below)
  have turned := @rotate_holds K _ path uncle sibling tree
    side.other grandParent parent _ _ (by simpa using above)
  obtain ⟨later, rotated, holdsLater⟩ := turned
  refine ⟨later, ?_, Holds.up.mpr (by simpa using holdsLater)⟩
  have upwards := holds.parent_root focused
  simp [straighten, straight, upwards, rotated]

theorem straighten_other (holds : Holds links (⟨side.other, parent, data, sibling⟩ ::
      ⟨side, grandParent, other, uncle⟩ :: path) (.join side first node nodeData second)) :
    ∃ later, links.straighten side node parent grandParent = some (later, parent) ∧
      Holds later (⟨side, node, { nodeData with color := .black },
        .join side second grandParent { other with color := .red } uncle⟩ ::
          path) (.join side sibling parent data first) := by
  have bent : (links.cells parent).child side.other = some node := by
    rw [holds.read_parent]
    simp
  have atParent := Holds.up.mp holds
  obtain ⟨inner, rotatedInner, holdsInner⟩ :=
    @rotate_holds K links _ sibling first second side parent node _ _ (by simpa using atParent)
  have upwards := holdsInner.toNear.parent_root (Tree.root_join ..)
  have below := holds_setColor .black holdsInner
  have above := holds_setColor .red (Holds.up.mp below)
  obtain ⟨later, rotated, holdsLater⟩ := @rotate_holds K _ path uncle second
      (.join side sibling parent data first) side.other grandParent node _ _
      (by simpa using above)
  refine ⟨later, ?_, Holds.up.mpr (by simpa using holdsLater)⟩
  simp [straighten, bent, rotatedInner, upwards, rotated]

theorem insertFixupOn_recolor
    (holds : Holds links (⟨frameSide, parent, data, sibling⟩ :: ⟨side, grandParent, other,
        .join uncleSide first uncleNode uncleData second⟩ :: path) tree)
    (uncleRed : uncleData.color = .red) :
    ∃ later, links.insertFixupOn side node parent grandParent = some (later, grandParent) ∧
      Holds later path (.join side
        (.join frameSide tree parent { data with color := .black } sibling)
        grandParent { other with color := .red }
        (.join uncleSide first uncleNode { uncleData with color := .black } second)) := by
  have atParent := Holds.up.mp holds
  have readGrandParent := atParent.read_parent
  have uncleColored : links.color uncleNode = .red := by
    rw [color_of_holds (Holds.up.mp atParent).toFar]
    exact uncleRed
  have parentBlack := Holds.up.mp (holds_setColor .black atParent)
  have uncleBlack := holds_setColor_far .black parentBlack
  have recolored := holds_setColor .red uncleBlack
  refine ⟨_, ?_, recolored⟩
  simp [insertFixupOn, readGrandParent, uncleColored]

theorem insertFixupOn_straighten
    (holds : Holds links (⟨side, grandParent, other, uncle⟩ :: path) tree)
    (uncleBalanced : Balanced uncle .black height) :
    links.insertFixupOn side node parent grandParent =
      links.straighten side node parent grandParent := by
  have readGrandParent := holds.read_parent
  cases uncle with
  | leaf => simp [insertFixupOn, readGrandParent, Tree.root]
  | node left uncleNode uncleData right =>
    have uncleHolds := (Holds.up.mp holds).toFar
    have notRed := isRed_of_balanced uncleHolds uncleBalanced
    simp only [isRed, Tree.root] at notRed
    have black : links.color uncleNode ≠ .red := by
      intro red
      simp [red] at notRed
    simp [insertFixupOn, readGrandParent, Tree.root, black]

theorem entries_join : entries (.join side tree node data sibling) =
      match side with
      | .left => entries tree ++ (node, data.key) :: entries sibling
      | .right => entries sibling ++ (node, data.key) :: entries tree := by
  cases side <;> rfl

theorem entries_join_congr {other : NodeTree K} (same : entries other = entries sibling) :
    entries (.join side tree node data other) = entries (.join side tree node data sibling) := by
  rw [entries_join, entries_join, same]

theorem entries_plug_congr {other : NodeTree K} (same : entries other = entries tree) :
    entries (path.plug other) = entries (path.plug tree) := by
  rw [entries, entries, Path.listing_plug, Path.listing_plug]
  have listed : other.listing (fun id data => (id, data.key)) =
      tree.listing fun id data => (id, data.key) := same
  rw [listed]

theorem insertFixupOn_repairing (holds : Holds links (frame :: grand :: path) tree)
    (focused : tree.root = some node) (balanced : Balanced tree .red height)
    (above : BalancedPath (frame :: grand :: path) .red height) :
    ∃ later laterNode laterPath laterTree, links.insertFixupOn grand.side node frame.id grand.id =
        some (later, laterNode) ∧ Repairing later laterNode laterPath laterTree ∧
      laterPath.length ≤ path.length + 1 ∧
      Keeps (frame :: grand :: path) tree laterPath laterTree := by
  obtain ⟨frameSide, parent, data, sibling⟩ := frame
  obtain ⟨side, grandParent, other, uncle⟩ := grand
  cases above with
  | red colored siblingBalanced inside upper =>
  cases upper with
  | @black _ _ _ uncleColor upperColor grandColored uncleBalanced upper =>
  simp only at uncleBalanced
  cases uncleColor with
  | red =>
    obtain ⟨first, uncleNode, uncleData, second, rfl⟩ := uncleBalanced.exists_join .left (.inl rfl)
    obtain ⟨uncleRed, firstBalanced, secondBalanced⟩ := balanced_join_red.mp uncleBalanced
    obtain ⟨later, evaluated, holdsLater⟩ := insertFixupOn_recolor holds uncleRed
    refine ⟨later, grandParent, path, _, evaluated,
      ⟨holdsLater, Tree.root_join .., height + 1, upperColor, ?_, upper⟩,
      Nat.le_succ _, ?_, ?_⟩
    · refine balanced_join_red.mpr ⟨rfl, ?_, ?_⟩
      · exact balanced_join_black.mpr ⟨height, _, _, rfl, rfl, balanced, siblingBalanced⟩
      · exact balanced_join_black.mpr ⟨height, _, _, rfl, rfl, firstBalanced, secondBalanced⟩
    · refine entries_plug_congr ?_
      simp only [entries_join]
    · intro one two spine
      obtain ⟨lower, starts⟩ := spine.up
      have upwards : side = .left := spine.1 _ (List.mem_cons_of_mem _ List.mem_cons_self)
      subst lower upwards
      refine ⟨fun frame listed => spine.1 frame (by simp [listed]), .inl (.inr ?_)⟩
      exact starts
  | black =>
    rw [insertFixupOn_straighten (Holds.up.mp holds) uncleBalanced]
    obtain rfl | rfl := frameSide.eq_or_eq_other side
    · obtain ⟨later, evaluated, holdsLater⟩ := straighten_same holds focused
      refine ⟨later, node, _, tree, evaluated, ⟨holdsLater, focused, height, .black, balanced, ?_⟩,
        Nat.le_refl _, ?_, ?_⟩
      · exact .black rfl (balanced_join_red.mpr ⟨rfl, siblingBalanced, uncleBalanced⟩) upper
      · simp only [Path.plug]
        refine entries_plug_congr ?_
        cases frameSide <;> simp [entries_join]
      · intro one two spine
        refine ⟨?_, ?_⟩
        · intro frame listed
          obtain rfl | listed := List.mem_cons.mp listed
          · exact spine.1 ⟨frameSide, parent, data, sibling⟩ (by simp)
          · exact spine.1 frame (by simp [listed])
        · obtain starts | ⟨leafData, frame, rest, rfl, same, rfl⟩ := spine.2
          · exact .inl starts
          · cases same
            exact .inr ⟨leafData, _, _, rfl, rfl, rfl⟩
    · obtain ⟨first, place, nodeData, second, rfl⟩ := balanced.exists_join side (.inl rfl)
      obtain ⟨nodeRed, firstBalanced, secondBalanced⟩ := balanced_join_red.mp balanced
      rw [Tree.root_join, Option.some.injEq] at focused
      subst focused
      obtain ⟨later, evaluated, holdsLater⟩ := straighten_other holds
      refine ⟨later, parent, _, _, evaluated,
        ⟨holdsLater, Tree.root_join .., height, .black, ?_, ?_⟩,
        Nat.le_refl _, ?_, ?_⟩
      · exact balanced_join_red.mpr ⟨colored, siblingBalanced, firstBalanced⟩
      · exact .black rfl (balanced_join_red.mpr ⟨rfl, secondBalanced, uncleBalanced⟩) upper
      · simp only [Path.plug]
        refine entries_plug_congr ?_
        cases side <;> simp [entries_join, Side.other]
      · intro one two spine
        have lower : side.other = .left := spine.1 _ List.mem_cons_self
        have upwards : side = .left := spine.1 _ (List.mem_cons_of_mem _ List.mem_cons_self)
        subst upwards
        cases lower

end

section

variable {links : NodeLinks K} {path : NodePath K}

theorem insertFixup_eq (holds : Holds links (frame :: grand :: path) tree) :
    links.insertFixup node frame.id grand.id =
      links.insertFixupOn grand.side node frame.id grand.id := by
  have atParent := Holds.up.mp holds
  have read := atParent.read_parent
  have differ := atParent.sibling_root_ne (Tree.root_join ..)
  rw [Tree.root_join] at read
  obtain ⟨side, grandParent, other, uncle⟩ := grand
  cases side with
  | left =>
    rw [insertFixup, if_neg]
    rw [read]
    exact differ
  | right =>
    rw [insertFixup, if_pos]
    rw [read]
    rfl

/-- With enough rounds the loop returns, and only the root may be of the wrong
color. -/
theorem insertFixupsLoop_repairing (bound : Nat) (repairing : Repairing links node path tree)
    (enough : path.length < bound) :
    ∃ later whole color height, insertFixupsLoop bound links node = some later ∧
      Holds later [] whole ∧ Balanced whole color height ∧ Keeps path tree [] whole := by
  induction bound generalizing links node path tree with
  | zero => omega
  | succ bound ih =>
    obtain ⟨holds, focused, height, pathColor, balanced, above⟩ := repairing
    have upwards := holds.parent_root focused
    have atRoot : insertFixupsLoop (bound + 1) links node = some links → Fits pathColor .red →
        ∃ later whole color height, insertFixupsLoop (bound + 1) links node = some later ∧
          Holds later [] whole ∧ Balanced whole color height ∧
          Keeps path tree [] whole := by
      intro evaluated fits
      obtain ⟨color, rootHeight, plugged, _⟩ := above.plug balanced fits
      refine ⟨links, path.plug tree, color, rootHeight, evaluated, holds.whole, plugged, rfl, ?_⟩
      intro one two spine
      exact ⟨by simp, .inl spine.plug⟩
    cases path with
    | nil =>
      refine atRoot ?_ ?_
      · simp [insertFixupsLoop, upwards]
      · cases above
        exact black_fits
    | cons frame path =>
      have colored := color_of_holds (Holds.up.mp holds)
      cases above with
      | black frameColored siblingBalanced upper =>
        refine atRoot ?_ black_fits
        rw [frameColored] at colored
        simp [insertFixupsLoop, upwards, colored]
      | red frameColored siblingBalanced inside upper =>
        obtain ⟨grand, path, rfl⟩ := List.exists_cons_of_ne_nil inside
        obtain ⟨later, laterNode, laterPath, laterTree, evaluated,
          repairing, shorter, keeps⟩ := insertFixupOn_repairing holds focused balanced
            (.red frameColored siblingBalanced inside upper)
        obtain ⟨last, whole, color, wholeHeight, finished, holdsLast,
          balancedLast, keepsLast⟩ := ih repairing (by
            simp only [List.length_cons] at enough
            omega)
        refine ⟨last, whole, color, wholeHeight, ?_, holdsLast, balancedLast, keeps.trans keepsLast⟩
        have grandUpwards := (Holds.up.mp holds).parent_root (Tree.root_join ..)
        rw [frameColored] at colored
        rw [Path.parent_cons] at upwards grandUpwards
        simp only [insertFixupsLoop, upwards, colored, if_true, grandUpwards]
        simp only [some_bind, insertFixup_eq holds, evaluated]
        exact finished

theorem ne_leaf_of_entries (focused : tree.root = some node)
    (same : entries whole = entries (path.plug tree)) : whole ≠ .leaf := by
  rintro rfl
  have listed : (path.plug tree).listing (fun id data => (id, data.key)) = [] := same.symm
  rw [Path.listing_plug, List.append_eq_nil_iff, List.append_eq_nil_iff,
    Tree.listing_eq_nil_iff] at listed
  rw [listed.1.2] at focused
  cases focused

theorem insertFixups_repairing (repairing : Repairing links node path tree)
    (enough : path.length < bound) :
    ∃ later whole height, insertFixups bound links node = some later ∧
      Holds later [] whole ∧ Balanced whole .black height ∧ Keeps path tree [] whole := by
  obtain ⟨height, color, balanced, _⟩ := repairing.balanced
  have red : links.color node = .red := by
    have isRed := isRed_of_balanced repairing.holds balanced
    simpa [repairing.focused, NodeLinks.isRed] using isRed
  obtain ⟨later, whole, wholeColor, wholeHeight, evaluated, holds, wholeBalanced, keeps⟩ :=
      insertFixupsLoop_repairing bound repairing enough
  have nonempty : whole ≠ .leaf := ne_leaf_of_entries repairing.focused keeps.sameEntries
  obtain ⟨blackHeight, blackened⟩ := wholeBalanced.blacken
  cases whole with
  | leaf => exact absurd rfl nonempty
  | node left root data right =>
    have rooted : later.root = some root := holds.rooted
    refine ⟨later.setColor .black root,
      recolor .black (.node left root data right), blackHeight, ?_, ?_,
      blackened, ?_, ?_⟩
    · simp [insertFixups, red, evaluated, rooted]
    · exact @holds_setColor K later [] left right .left root data .black holds
    · exact keeps.sameEntries
    intro one two spine
    refine ⟨by simp, .inl ?_⟩
    obtain starts | ⟨_, _, _, _, never, _⟩ := (keeps.sameSpine one two spine).2
    · exact starts
    · cases never

end

end MixUpOS.AK
