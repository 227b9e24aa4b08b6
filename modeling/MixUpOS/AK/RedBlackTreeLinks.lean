import MixUpOS.AK.RedBlackTree

/-!
# What the pointer operations do to the tree

Each operation of `NodeLinks` is followed write by write, and specified by the
tree that the links hold afterwards.
-/

namespace MixUpOS.AK.NodeLinks

open Library Library.LinkedTrees List

variable {K : Type} {links : NodeLinks K} {path : Path Nat (NodeData K)}
  {near middle far tree : Tree Nat (NodeData K)} {side : Side}
  {node pivot : Nat} {data other : NodeData K}

theorem holds_setColor (color : Color) (holds : Holds links path (.join side near node data far)) :
    Holds (links.setColor color node) path (.join side near node { data with color } far) := by
  have read := holds.read
  have same : links.setColor color node =
      links.modify node fun cell => cell.withData { data with color } := by
    simp [setColor, Links.modify, read]
  rw [same]
  exact holds.withData

theorem rotate_holds
    (holds : Holds links path (.join side near node data (.join side middle pivot other far))) :
    ∃ later, rotate side links node = some later ∧ Holds later path
      (.join side (.join side near node data middle) pivot other far) := by
  have readNode := holds.read
  have opened := (Pieces.tree_join [_, _] side).mp ((Pieces.tree_join [] side).mp holds.pieces)
  simp only [Tree.root_join] at opened
  have readPivot : links.cells pivot = .ofSide side middle.root far.root
      (some node) other := opened.cell_eq (by simp)
  have inner := Links.pieces_modify [] (fun cell => cell.withChild side.other middle.root) opened
  have reparented := Links.pieces_reparent [_, _, _] (some node) inner
  have lowered := Links.pieces_modify [_, _]
    (fun cell => cell.withChild side (some node)) reparented
  have parented := Links.pieces_modify [] (fun cell => cell.withParent (some pivot)) lowered
  have raised := Links.pieces_modify [_, _]
    (fun cell => cell.withParent (Path.parent none path)) parented
  obtain ⟨rooted, replaced⟩ := Links.pieces_replaceChild [_, _, _, _, _]
    (some pivot) (by simpa using holds.rooted) raised
    ⟨_, mem_cons_self .., by simp [Piece.ids]⟩
  simp only [Cell.withChild_ofSide, Cell.withChild_other_ofSide, Cell.withParent_ofSide] at replaced
  have lower := Pieces.closeTree [_] side (replaced.front [_, _]) rfl rfl
  have closed := Pieces.closeTree [] side lower (by simp) rfl
  refine ⟨_, ?_, Holds.intro rooted closed (by simp)⟩
  simp [rotate, readNode, readPivot]

theorem unlink_holds (holds : Holds links path (.join side tree node data .leaf)) :
    (links.unlink node).2 = tree.root ∧ Holds (links.unlink node).1 path tree ∧
      (links.unlink node).1.cells node = links.cells node := by
  have read := holds.read
  have opened := (Pieces.tree_join [] side).mp holds.pieces
  rw [Tree.root_join] at opened
  have reparented := Links.pieces_reparent [_] (Path.parent none path) opened
  obtain ⟨rooted, replaced⟩ := Links.pieces_replaceChild [_, _, _] tree.root
    (by simpa using holds.rooted) reparented
    ⟨_, mem_cons_self .., by simp [Piece.ids]⟩
  have child : ((links.cells node).leftChild <|> (links.cells node).rightChild) = tree.root := by
    rw [read]
    cases side <;> cases tree <;> rfl
  have readLater := reparented.cell_eq mem_cons_self
  have parent : (links.cells node).parent = Path.parent none path := by
    rw [read, Cell.parent_ofSide]
  have unlinked : links.unlink node =
      ((links.reparent tree.root (Path.parent none path)).replaceChild
        (Path.parent none path) node tree.root, tree.root) := by
    simp [unlink, child, parent, readLater]
  rw [unlinked]
  refine ⟨rfl, ⟨rooted, replaced.sublist ?_⟩, ?_⟩
  · simp
  · rw [read]
    exact replaced.cell_eq mem_cons_self

theorem attach_holds (holds : Holds links (frame :: path) .leaf)
    (outside : node ∉ Path.ids (frame :: path))
    (childless : ∀ side, (links.cells node).child side = none) :
    Holds ((links.modify frame.id fun cell =>
        cell.withChild frame.side (some node)).modify node fun cell =>
          cell.withParent (some frame.id)) (frame :: path)
      (.node .leaf node (links.cells node).data .leaf) := by
  have added := @Pieces.add _ _ _ _ node holds.pieces (by
    simpa [Piece.ids, Tree.listing] using outside)
  have opened := (Pieces.path_cons [_, _]).mp added
  have lowered := Links.pieces_modify [_, _]
    (fun cell => cell.withChild frame.side (some node)) opened
  rw [Cell.withChild_ofSide] at lowered
  have parented := Links.pieces_modify [] (fun cell => cell.withParent (some frame.id)) lowered
  have closedPath := (Pieces.path_cons [_, _]).mpr parented
  have ready : (links.cells node).withParent (some frame.id) =
      .ofSide .left none none (some frame.id) (links.cells node).data := by
    have left := childless .left
    have right := childless .right
    simp only [Cell.child] at left right
    simp [Cell.withParent, Cell.ofSide, left, right]
  rw [ready] at closedPath
  have first := (Pieces.tree_leaf [_] (some node)).mpr ((Pieces.tree_leaf [_] _).mp closedPath)
  have second := (Pieces.tree_leaf [_] (some node)).mpr first
  have closed := Pieces.closeTree [] .left second rfl rfl
  have rooted : links.root = Path.entry (some node) (frame :: path) := holds.rooted
  exact Holds.intro rooted closed rfl

section

variable {nodeCell successorCell : Cell Nat (NodeData K)}
  {after : List (Piece Nat (NodeData K))} {successor : Nat}

theorem pieces_swapColors
    (holding : Pieces links.cells (.cell node nodeCell :: .cell successor successorCell :: after)) :
    Pieces (links.swapColors node successor).cells (.cell node (nodeCell.withData
          { nodeCell.data with color := successorCell.data.color }) ::
        .cell successor (successorCell.withData
          { successorCell.data with color := nodeCell.data.color }) :: after) := by
  have readNode := holding.cell_eq mem_cons_self
  have readSuccessor := holding.cell_eq (mem_cons_of_mem _ mem_cons_self)
  have first := Links.pieces_modify [] (fun cell => cell.withData
    { cell.data with color := successorCell.data.color }) holding
  have second := Links.pieces_modify [_] (fun cell => cell.withData
    { cell.data with color := nodeCell.data.color }) first
  simpa [swapColors, setColor, color, readNode, readSuccessor] using second

theorem pieces_swapChildren (neighborSwap : Bool)
    (holding : Pieces links.cells (.cell node nodeCell :: .cell successor successorCell :: after)) :
    Pieces (links.swapChildren neighborSwap node successor).cells (.cell node { nodeCell with
          leftChild := successorCell.leftChild
          rightChild := successorCell.rightChild } ::
        .cell successor { successorCell with
          leftChild := nodeCell.leftChild
          rightChild := if neighborSwap then some node
            else nodeCell.rightChild } :: after) := by
  have readNode := holding.cell_eq mem_cons_self
  have readSuccessor := holding.cell_eq (mem_cons_of_mem _ mem_cons_self)
  have first := Links.pieces_modify []
    (fun cell => cell.withChild .left successorCell.leftChild) holding
  have second := Links.pieces_modify [_] (fun cell => cell.withChild .left nodeCell.leftChild) first
  have third := Links.pieces_modify []
    (fun cell => cell.withChild .right successorCell.rightChild) second
  have fourth := Links.pieces_modify [_] (fun cell => cell.withChild .right
    (if neighborSwap then some node else nodeCell.rightChild)) third
  have readNodeLater := second.cell_eq mem_cons_self
  have readSuccessorLater := second.cell_eq (mem_cons_of_mem _ mem_cons_self)
  simp only [swapChildren, readNode, readSuccessor]
  rw [readNodeLater, readSuccessorLater]
  exact fourth

variable {lower : Path Nat (NodeData K)} {left rest : Tree Nat (NodeData K)}
  {frame : Frame Nat (NodeData K)} {parent : Option Nat}

private theorem open_relink (holds : Holds links path (.node left node data
      (lower.plug (.node .leaf successor other rest)))) :
    Pieces links.cells
      [.cell node ⟨left.root, Path.entry (some successor) lower, Path.parent none path, data⟩,
        .cell successor ⟨none, rest.root, Path.parent (some node) lower, other⟩,
        .tree (some node) left, .tree (some successor) rest,
        .path (some node) (some successor) lower, .path none (some node) path] := by
  have opened := (Pieces.tree_join [_, _] .left).mp ((Pieces.tree_plug [_, _]).mp
      ((Pieces.tree_join [] .left).mp holds.pieces))
  have ordered := ((Pieces.tree_leaf [_, _, _] _).mp opened).swap [_]
  rw [Path.root_plug] at ordered
  exact ordered

private theorem close_relink (rooted : links.root = Path.entry (some successor) path)
    (pieces : Pieces links.cells
      [.cell node ⟨none, rest.root, Path.parent (some successor) lower, data⟩,
        .cell successor ⟨left.root, Path.entry (some node) lower, Path.parent none path, other⟩,
        .tree (some successor) left, .tree (some node) rest,
        .path (some successor) (some node) lower, .path none (some successor) path]) :
    Holds links path (.node left successor other (lower.plug (.node .leaf node data rest))) := by
  have ordered := (pieces.swap []).swap [_]
  have leaf := (Pieces.tree_leaf [_, _, _] (some node)).mpr ordered
  have lowerTree := Pieces.closeTree [_, _] .left leaf rfl rfl
  have right := (Pieces.tree_plug [_, _]).mpr lowerTree
  have closed := Pieces.closeTree [] .left right rfl Path.root_plug
  exact Holds.intro rooted closed rfl

/-- The path to the successor is empty if that is the right child of the node. -/
private theorem pieces_redirectNeighbors (rooted : links.root = Path.entry (some node) path)
    (pieces : Pieces links.cells
      [.cell node ⟨left.root, Path.entry (some successor) lower, Path.parent none path, data⟩,
        .cell successor ⟨none, rest.root, Path.parent (some node) lower, other⟩,
        .tree (some node) left, .tree (some successor) rest,
        .path (some node) (some successor) lower, .path none (some node) path]) :
    let later := links.redirectNeighbors lower.isEmpty node successor
    later.root = Path.entry (some successor) path ∧ Pieces later.cells
        [.cell node ⟨left.root, Path.entry (some successor) lower, Path.parent none path, data⟩,
          .cell successor ⟨none, rest.root, Path.parent (some node) lower, other⟩,
          .tree (some successor) left, .tree (some node) rest,
          .path (some successor) (some successor) lower, .path none (some successor) path] := by
  have readNode := pieces.cell_eq mem_cons_self
  have leftParented := Links.pieces_reparent [_, _] (some successor) pieces
  have readNodeLater := leftParented.cell_eq mem_cons_self
  obtain ⟨middle, isMiddle, parented⟩ : ∃ middle, middle =
        (if lower.isEmpty then links.reparent left.root (some successor)
        else (links.reparent left.root (some successor)).reparent
          (Path.entry (some successor) lower) (some successor)) ∧
      middle.root = links.root ∧ Pieces middle.cells
        [.cell node ⟨left.root, Path.entry (some successor) lower, Path.parent none path, data⟩,
          .cell successor ⟨none, rest.root, Path.parent (some node) lower, other⟩,
          .tree (some successor) left, .tree (some successor) rest,
          .path (some successor) (some successor) lower, .path none (some node) path] := by
    cases lower with
    | nil =>
      exact ⟨_, rfl, by simp, (Pieces.path_nil [_, _, _, _] _ _).mpr
        ((Pieces.path_nil [_, _, _, _] _ _).mp leftParented)⟩
    | cons frame lower =>
      exact ⟨_, rfl, by simp, Links.pieces_reparent_path [_, _, _, _] (some successor) leftParented⟩
  have readNodeLast := parented.2.cell_eq mem_cons_self
  obtain ⟨rootedLater, replaced⟩ := Links.pieces_replaceChild
    [_, _, _, _, _] (some successor) (parented.1.trans rooted) parented.2
    ⟨_, mem_cons_self .., by simp [Piece.ids]⟩
  have readSuccessor := replaced.cell_eq (mem_cons_of_mem _ mem_cons_self)
  have redirected := Links.pieces_reparent [_, _, _] (some node) replaced
  simp only [redirectNeighbors, readNode, readNodeLater, ← isMiddle, readNodeLast, readSuccessor]
  exact ⟨by simpa using rootedLater, redirected⟩

private theorem pieces_swapParents_adjacent
    (pieces : Pieces links.cells (.cell node nodeCell :: .cell successor successorCell :: after)) :
    Pieces (links.swapParents true node successor).cells
      (.cell node (nodeCell.withParent (some successor)) ::
        .cell successor (successorCell.withParent nodeCell.parent) :: after) := by
  have readNode := pieces.cell_eq mem_cons_self
  have first := Links.pieces_modify [_] (fun cell => cell.withParent nodeCell.parent) pieces
  have second := Links.pieces_modify [] (fun cell => cell.withParent (some successor)) first
  simpa [swapParents, readNode] using second

private theorem pieces_swapParents_apart
    (pieces : Pieces links.cells (.cell node nodeCell :: .cell successor successorCell ::
        .tree parent left :: .tree (some node) rest ::
          .path (some successor) (some successor) (frame :: lower) :: after))
    (below : successorCell.parent = some frame.id) :
    let later := links.swapParents false node successor
    later.root = links.root ∧ Pieces later.cells
      (.cell node (nodeCell.withParent (some frame.id)) ::
        .cell successor (successorCell.withParent nodeCell.parent) ::
          .tree parent left :: .tree (some node) rest ::
            .path (some successor) (some node) (frame :: lower) :: after) := by
  have readSuccessor := pieces.cell_eq (mem_cons_of_mem _ mem_cons_self)
  have replaced := Links.pieces_replaceChild_cons [_, _, _, _] (some node)
    pieces ⟨_, mem_cons_of_mem _ mem_cons_self, by simp [Piece.ids]⟩
  have readNodeLater := replaced.cell_eq mem_cons_self
  have readSuccessorLater := replaced.cell_eq (mem_cons_of_mem _ mem_cons_self)
  have first := Links.pieces_modify [] (fun cell => cell.withParent (some frame.id)) replaced
  have second := Links.pieces_modify [_] (fun cell => cell.withParent nodeCell.parent) first
  simp only [swapParents, readSuccessor, below, readNodeLater,
    readSuccessorLater, Bool.false_eq_true, if_false]
  exact ⟨rfl, second⟩

theorem relink_holds (holds : Holds links path (.node left node data
      (lower.plug (.node .leaf successor other rest)))) :
    Holds (links.relink node successor) path
      (.node left successor { other with color := data.color } (lower.plug
          (.node .leaf node { data with color := other.color } rest))) := by
  have pieces := open_relink holds
  have rooted : links.root = Path.entry (some node) path := holds.rooted
  have readSuccessor := pieces.cell_eq (mem_cons_of_mem _ mem_cons_self)
  cases lower with
  | nil =>
    have adjacent : ((links.cells successor).parent == some node) = true := by
      rw [readSuccessor]
      exact beq_self_eq_true _
    obtain ⟨rootedLater, redirected⟩ := pieces_redirectNeighbors rooted pieces
    have parents := pieces_swapParents_adjacent redirected
    have children := pieces_swapChildren true parents
    have colors := pieces_swapColors children
    have full := (Pieces.path_nil [_, _, _, _] (some successor) (some node)).mpr
      ((Pieces.path_nil [_, _, _, _] _ _).mp colors)
    simp only [relink, adjacent]
    exact close_relink rootedLater full
  | cons frame lower =>
    have apart : ((links.cells successor).parent == some node) = false := by
      rw [readSuccessor, beq_eq_false_iff_ne]
      intro same
      refine pieces.outside [] (mem_singleton_self node)
        (mem_cons_of_mem _ (mem_cons_of_mem _
          (mem_cons_of_mem _ mem_cons_self))) ?_
      simp only [Path.parent_cons, Option.some.injEq] at same
      simp [Piece.ids, Path.ids, same]
    obtain ⟨rootedLater, redirected⟩ := pieces_redirectNeighbors rooted pieces
    obtain ⟨sameRoot, parents⟩ := pieces_swapParents_apart redirected rfl
    have children := pieces_swapChildren false parents
    have colors := pieces_swapColors children
    simp only [relink, apart]
    exact close_relink (sameRoot.trans rootedLater) colors

end

end MixUpOS.AK.NodeLinks
