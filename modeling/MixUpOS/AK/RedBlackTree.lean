import MixUpOS.AK.Builtins
import MixUpOS.Library.LinkedTrees

/-!
# Red-black trees

`BaseRedBlackTree` and the part of `IntrusiveRedBlackTree` that changes the
tree.  Nodes are numbered, and the tree reads and writes them in a store of
all nodes, so a node keeps what an earlier tree wrote to it.

`none` is a failed `VERIFY` or a null pointer that is dereferenced.  A loop
that follows pointers gets the number of nodes as a bound, and is `none` if it
takes more rounds.
-/

namespace MixUpOS.AK

open Library Library.LinkedTrees

inductive Color where
  | red
  | black
deriving DecidableEq, Repr

/-- What a node has besides its links. -/
structure NodeData (K : Type) where
  color : Color
  key : K
deriving DecidableEq, Repr

abbrev Node (K : Type) := Cell Nat (NodeData K)

/-- The links of all nodes and `m_root`. -/
abbrev NodeLinks (K : Type) := Links Nat (NodeData K)

namespace NodeLinks

variable {K : Type} (side : Side) (links : NodeLinks K)

def color (links : NodeLinks K) (node : Nat) : Color := (links.cells node).data.color

def setColor (color : Color) (node : Nat) : NodeLinks K :=
  links.modify node fun cell => cell.withData { cell.data with color }

/-- `node && node->color == Color::Red`. -/
def isRed : Option Nat → Bool
  | none => false
  | some node => links.color node == .red

/-- `rotate_left` and `rotate_right`: the child opposite to `side` takes the
place of `subtree_root`. -/
def rotate (subtreeRoot : Nat) : Option (NodeLinks K) := do
  let pivot ← (links.cells subtreeRoot).child side.other
  let parent := (links.cells subtreeRoot).parent
  -- stage 1
  let inner := (links.cells pivot).child side
  let links := links.modify subtreeRoot fun cell =>
    cell.withChild side.other inner
  let links := links.reparent inner (some subtreeRoot)
  -- stage 2
  let links := links.modify pivot fun cell =>
    cell.withChild side (some subtreeRoot)
  let links := links.modify subtreeRoot fun cell =>
    cell.withParent (some pivot)
  -- stage 3
  let links := links.modify pivot fun cell => cell.withParent parent
  return links.replaceChild parent subtreeRoot (some pivot)

def rotateLeft (subtreeRoot : Nat) : Option (NodeLinks K) := rotate .left links subtreeRoot

def rotateRight (subtreeRoot : Nat) : Option (NodeLinks K) := rotate .right links subtreeRoot

/-- The branch of `insert_fixups` whose uncle is not red: `parent` is the child
of `grandParent` on `side`. -/
def straighten (node parent grandParent : Nat) : Option (NodeLinks K × Nat) := do
  let (links, node) ←
    if (links.cells parent).child side.other = some node then do
      let links ← rotate side links parent
      pure (links, parent)
    else pure (links, node)
  let parent ← (links.cells node).parent
  let links := links.setColor .black parent
  let links := links.setColor .red grandParent
  let links ← rotate side.other links grandParent
  return (links, node)

/-- A round of `insert_fixups`, with `node->parent` on `side` of its parent. -/
def insertFixupOn (node parent grandParent : Nat) : Option (NodeLinks K × Nat) :=
  match (links.cells grandParent).child side.other with
  | some uncle =>
    if links.color uncle = .red then
      let links := links.setColor .black parent
      let links := links.setColor .black uncle
      let links := links.setColor .red grandParent
      some (links, grandParent)
    else links.straighten side node parent grandParent
  | none => links.straighten side node parent grandParent

def insertFixup (node parent grandParent : Nat) : Option (NodeLinks K × Nat) :=
  if (links.cells grandParent).rightChild = some parent then
    links.insertFixupOn .right node parent grandParent
  else links.insertFixupOn .left node parent grandParent

def insertFixupsLoop : Nat → NodeLinks K → Nat → Option (NodeLinks K)
  | 0, _, _ => none
  | bound + 1, links, node =>
    match (links.cells node).parent with
    | none => some links
    | some parent =>
      if links.color parent = .red then do
        let grandParent ← (links.cells parent).parent
        let (links, node) ← links.insertFixup node parent grandParent
        insertFixupsLoop bound links node
      else some links

def insertFixups (bound : Nat) (links : NodeLinks K) (node : Nat) : Option (NodeLinks K) := do
  verify (links.color node = .red)
  let links ← insertFixupsLoop bound links node
  let root ← links.root
  return links.setColor .black root

/-- Follow the children on a side. -/
def descend (links : NodeLinks K) (side : Side) : Nat → Nat → Option Nat
  | 0, _ => none
  | bound + 1, node =>
    match (links.cells node).child side with
    | none => some node
    | some child => links.descend side bound child

/-- Follow the parents while `node` is the child on a side. -/
def ascend (links : NodeLinks K) (side : Side) : Nat → Nat → Option Nat → Option (Option Nat)
  | 0, _, _ => none
  | _, _, none => some none
  | bound + 1, node, some temp =>
    if (links.cells temp).child side = some node then
      links.ascend side bound temp (links.cells temp).parent
    else some (some temp)

/-- `successor` and `predecessor`: the next node on a side. -/
def neighbor (side : Side) (bound node : Nat) : Option (Option Nat) :=
  match (links.cells node).child side with
  | some child => (links.descend side.other bound child).map some
  | none => links.ascend side bound node (links.cells node).parent

def successor (bound node : Nat) : Option (Option Nat) := links.neighbor .right bound node

/-- The pointers of other nodes to the two nodes that change places. -/
def redirectNeighbors (neighborSwap : Bool) (links : NodeLinks K)
    (node successor : Nat) : NodeLinks K :=
  let links := links.reparent (links.cells node).leftChild (some successor)
  let links := if neighborSwap then links
    else links.reparent (links.cells node).rightChild (some successor)
  let links := links.replaceChild (links.cells node).parent node (some successor)
  links.reparent (links.cells successor).rightChild (some node)

def swapParents (neighborSwap : Bool) (links : NodeLinks K) (node successor : Nat) : NodeLinks K :=
  if neighborSwap then
    let nodeParent := (links.cells node).parent
    let links := links.modify successor fun cell => cell.withParent nodeParent
    links.modify node fun cell => cell.withParent (some successor)
  else
    let links := links.replaceChild (links.cells successor).parent successor (some node)
    let nodeParent := (links.cells node).parent
    let successorParent := (links.cells successor).parent
    let links := links.modify node fun cell => cell.withParent successorParent
    links.modify successor fun cell => cell.withParent nodeParent

def swapChildren (neighborSwap : Bool) (links : NodeLinks K) (node successor : Nat) : NodeLinks K :=
  let nodeLeft := (links.cells node).leftChild
  let successorLeft := (links.cells successor).leftChild
  let links := links.modify node fun cell =>
    cell.withChild .left successorLeft
  let links := links.modify successor fun cell =>
    cell.withChild .left nodeLeft
  let nodeRight := (links.cells node).rightChild
  let successorRight := (links.cells successor).rightChild
  let links := links.modify node fun cell =>
    cell.withChild .right successorRight
  links.modify successor fun cell =>
    cell.withChild .right (if neighborSwap then some node else nodeRight)

def swapColors (node successor : Nat) : NodeLinks K :=
  let nodeColor := links.color node
  let links := links.setColor (links.color successor) node
  links.setColor nodeColor successor

/-- `remove` when the node has two children: the node and its successor take
each other's place. -/
def relink (node successor : Nat) : NodeLinks K :=
  let neighborSwap := (links.cells successor).parent == some node
  let links := links.redirectNeighbors neighborSwap node successor
  let links := links.swapParents neighborSwap node successor
  let links := links.swapChildren neighborSwap node successor
  links.swapColors node successor

/-- The node is replaced by its only child, or by nothing. -/
def unlink (node : Nat) : NodeLinks K × Option Nat :=
  let child := (links.cells node).leftChild <|> (links.cells node).rightChild
  let links := links.reparent child (links.cells node).parent
  (links.replaceChild (links.cells node).parent node child, child)

/-- In `remove_fixups`, when only the child of the sibling that is closer to
the node is red. -/
def turnSibling (parent sibling : Nat) : Option (NodeLinks K × Nat) :=
  if !links.isRed ((links.cells sibling).child side.other) then do
    let near ← (links.cells sibling).child side
    let links := links.setColor .black near
    let links := links.setColor .red sibling
    let links ← rotate side.other links sibling
    let sibling ← (links.cells parent).child side.other
    return (links, sibling)
  else some (links, sibling)

/-- The last rotation of `remove_fixups`. -/
def settle (parent sibling : Nat) : Option (NodeLinks K × Option Nat) := do
  let links := links.setColor (links.color parent) sibling
  let links := links.setColor .black parent
  let far ← (links.cells sibling).child side.other
  let links := links.setColor .black far
  let links ← rotate side links parent
  return (links, links.root)

/-- The end of a round of `remove_fixups`, when the sibling is black. -/
def borrow (parent sibling : Nat) : Option (NodeLinks K × Option Nat) :=
  if !links.isRed ((links.cells sibling).child side) &&
      !links.isRed ((links.cells sibling).child side.other) then
    some (links.setColor .red sibling, some parent)
  else do
    let (links, sibling) ← links.turnSibling side parent sibling
    links.settle side parent sibling

/-- A round of `remove_fixups`, with the node on `side` of its parent. -/
def removeFixupOn (parent : Nat) : Option (NodeLinks K × Option Nat) := do
  let sibling ← (links.cells parent).child side.other
  if links.color sibling = .red then
    let links := links.setColor .black sibling
    let links := links.setColor .red parent
    let links ← rotate side links parent
    let sibling ← (links.cells parent).child side.other
    links.borrow side parent sibling
  else links.borrow side parent sibling

def removeFixup (node : Option Nat) (parent : Nat) : Option (NodeLinks K × Option Nat) :=
  if (links.cells parent).leftChild = node then
    links.removeFixupOn .left parent
  else links.removeFixupOn .right parent

def removeFixupsLoop :
    Nat → NodeLinks K → Option Nat → Option Nat → Option (NodeLinks K × Option Nat)
  | 0, _, _, _ => none
  | bound + 1, links, node, parent =>
    if node ≠ links.root ∧ links.isRed node = false then do
      let parent ← parent
      let (links, node) ← links.removeFixup node parent
      let place ← node
      removeFixupsLoop bound links node (links.cells place).parent
    else some (links, node)

def removeFixups (bound : Nat) (links : NodeLinks K)
    (node parent : Option Nat) : Option (NodeLinks K) := do
  let (links, node) ← removeFixupsLoop bound links node parent
  let node ← node
  return links.setColor .black node

end NodeLinks

/-- A tree, with the store of all nodes. -/
structure RedBlackTree (K : Type) where
  links : NodeLinks K
  size : Nat
  minimum : Option Nat

namespace RedBlackTree

variable {K : Type} [LinearOrder K]

def empty (nodes : Nat → Node K) : RedBlackTree K where
  links := ⟨none, nodes⟩
  size := 0
  minimum := none

/-- The loop of `insert`: the last node on the way down. -/
def searchParent (links : NodeLinks K) (key : K) :
    Nat → Option Nat → Option Nat → Option (Option Nat)
  | _, none, parent => some parent
  | 0, some _, _ => none
  | bound + 1, some temp, _ =>
    let next := if key < (links.cells temp).data.key then (links.cells temp).leftChild
      else (links.cells temp).rightChild
    searchParent links key bound next (some temp)

/-- The node becomes a child of `parent`. -/
def insertBelow (bound : Nat) (links : NodeLinks K) (node parent : Nat) : Option (NodeLinks K) :=
  let side : Side :=
    if (links.cells node).data.key < (links.cells parent).data.key then .left
    else .right
  let links := links.modify parent fun cell => cell.withChild side (some node)
  let links : NodeLinks K := links.modify node fun cell =>
    cell.withParent (some parent)
  if (links.cells parent).parent.isSome then links.insertFixups bound node
  else some links

def insert (tree : RedBlackTree K) (node : Nat) : Option (RedBlackTree K) := do
  let key := (tree.links.cells node).data.key
  let parent ← searchParent tree.links key tree.size tree.links.root none
  match parent with
  | none =>
    let links := tree.links.setColor .black node
    return ⟨{ links with root := some node }, 1, some node⟩
  | some parent =>
    let links ← insertBelow (tree.size + 1) tree.links node parent
    let minimum ← tree.minimum
    let minimum :=
      if (links.cells minimum).leftChild = some node then node else minimum
    return ⟨links, tree.size + 1, some minimum⟩

/-- A node with two children changes places with its successor. -/
def ensureOneChild (bound : Nat) (links : NodeLinks K) (node : Nat) : Option (NodeLinks K) :=
  if (links.cells node).leftChild.isSome && (links.cells node).rightChild.isSome then do
    let successor ← links.successor bound node
    let successor ← successor
    return links.relink node successor
  else some links

/-- A node with at most one child is taken out. -/
def removeNode (bound : Nat) (links : NodeLinks K) (node : Nat) : Option (NodeLinks K) :=
  let (links, child) := links.unlink node
  if links.color node ≠ .red then
    links.removeFixups bound child (links.cells node).parent
  else some links

def nextMinimum (tree : RedBlackTree K) (node : Nat) : Option (Option Nat) :=
  if tree.minimum = some node then tree.links.successor (tree.size + 1) node
  else some tree.minimum

def remove (tree : RedBlackTree K) (node : Nat) : Option (RedBlackTree K) :=
  if tree.size = 1 then some ⟨{ tree.links with root := none }, 0, none⟩
  else do
    let minimum ← tree.nextMinimum node
    let links ← ensureOneChild (tree.size + 1) tree.links node
    let links ← removeNode (tree.size + 1) links node
    return ⟨links, tree.size - 1, minimum⟩

end RedBlackTree

end MixUpOS.AK
