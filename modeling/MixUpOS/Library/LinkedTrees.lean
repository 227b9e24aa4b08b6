import Mathlib.Data.List.Flatten
import Mathlib.Data.List.Nodup
import Mathlib.Data.List.Perm.Basic

/-!
# Binary trees linked through a store

The nodes of a tree are cells of a store, with pointers to the children and
back to the parent.  A loop that walks through such a tree is at a subtree,
its focus, below a path of frames; `plug` is the whole tree.

`Pieces cells pieces` says that the cells hold some cells, subtrees and paths
that do not share a cell.  A write to one cell changes the piece of that cell
and leaves the others, so a sequence of pointer writes is followed one write
at a time.
-/

namespace MixUpOS.Library

open List

inductive Side where
  | left
  | right
deriving DecidableEq, Repr

namespace Side

def other : Side → Side
  | left => right
  | right => left

theorem eq_or_eq_other (first second : Side) : first = second ∨ first = second.other := by
  cases first <;> cases second <;> simp [other]

end Side

namespace LinkedTrees

variable {ι δ α : Type}

structure Cell (ι δ : Type) where
  leftChild : Option ι
  rightChild : Option ι
  parent : Option ι
  data : δ
deriving DecidableEq, Repr

namespace Cell

/-- A cell given by its child on one side and the child opposite. -/
def ofSide (side : Side) (near far parent : Option ι) (data : δ) : Cell ι δ :=
  match side with
  | .left => ⟨near, far, parent, data⟩
  | .right => ⟨far, near, parent, data⟩

def child (cell : Cell ι δ) : Side → Option ι
  | .left => cell.leftChild
  | .right => cell.rightChild

def withChild (cell : Cell ι δ) (side : Side) (child : Option ι) : Cell ι δ :=
  match side with
  | .left => { cell with leftChild := child }
  | .right => { cell with rightChild := child }

def withParent (cell : Cell ι δ) (parent : Option ι) : Cell ι δ := { cell with parent := parent }

def withData (cell : Cell ι δ) (data : δ) : Cell ι δ := { cell with data := data }

/-- The pointer to the child `old` is changed. -/
def replaceChild [DecidableEq ι] (cell : Cell ι δ) (old : ι) (new : Option ι) : Cell ι δ :=
  if cell.leftChild = some old then cell.withChild .left new
  else cell.withChild .right new

section

variable (side : Side) (near far parent pointer : Option ι) (data other : δ)

@[simp] theorem ofSide_other :
    ofSide side.other near far parent data = ofSide side far near parent data := by
  cases side <;> rfl

@[simp] theorem child_ofSide : (ofSide side near far parent data).child side = near := by
  cases side <;> rfl

@[simp] theorem child_other_ofSide : (ofSide side near far parent data).child side.other = far := by
  cases side <;> rfl

@[simp] theorem parent_ofSide : (ofSide side near far parent data).parent = parent := by
  cases side <;> rfl

@[simp] theorem data_ofSide : (ofSide side near far parent data).data = data := by
  cases side <;> rfl

@[simp] theorem withChild_ofSide : (ofSide side near far parent data).withChild side pointer =
      ofSide side pointer far parent data := by
  cases side <;> rfl

@[simp] theorem withChild_other_ofSide :
    (ofSide side near far parent data).withChild side.other pointer =
      ofSide side near pointer parent data := by
  cases side <;> rfl

@[simp] theorem withParent_ofSide :
    (ofSide side near far parent data).withParent pointer = ofSide side near far pointer data := by
  cases side <;> rfl

@[simp] theorem withData_ofSide :
    (ofSide side near far parent data).withData other = ofSide side near far parent other := by
  cases side <;> rfl

theorem replaceChild_ofSide [DecidableEq ι] (notFar : far ≠ some old) :
    (ofSide side (some old) far parent data).replaceChild old pointer =
      ofSide side pointer far parent data := by
  cases side with
  | left => simp [ofSide, replaceChild, withChild]
  | right => simp [ofSide, replaceChild, withChild, notFar]

end

end Cell

inductive Tree (ι δ : Type) where
  | leaf
  | node (left : Tree ι δ) (id : ι) (data : δ) (right : Tree ι δ)
deriving DecidableEq, Repr

namespace Tree

def root : Tree ι δ → Option ι
  | leaf => none
  | node _ id _ _ => some id

/-- What `item` gives for the nodes, in order. -/
def listing (item : ι → δ → α) : Tree ι δ → List α
  | leaf => []
  | node left id data right =>
    left.listing item ++ item id data :: right.listing item

abbrev ids (tree : Tree ι δ) : List ι := tree.listing fun id _ => id

/-- A node given by its subtree on one side and the subtree opposite. -/
def join (side : Side) (near : Tree ι δ) (id : ι) (data : δ) (far : Tree ι δ) : Tree ι δ :=
  match side with
  | .left => node near id data far
  | .right => node far id data near

variable (side : Side) (near far : Tree ι δ) (id : ι) (data : δ) (item : ι → δ → α)

@[simp] theorem join_other : join side.other near id data far = join side far id data near := by
  cases side <;> rfl

@[simp] theorem root_join : (join side near id data far).root = some id := by
  cases side <;> rfl

theorem listing_join_perm : ((join side near id data far).listing item).Perm
      (item id data :: (near.listing item ++ far.listing item)) := by
  cases side with
  | left => exact perm_middle
  | right => exact perm_middle.trans (perm_append_comm.cons _)

theorem root_mem_ids {tree : Tree ι δ} (rooted : tree.root = some place) : place ∈ tree.ids := by
  cases tree with
  | leaf => simp [root] at rooted
  | node left id data right =>
    simp only [root, Option.some.injEq] at rooted
    simp [listing, rooted]

theorem listing_eq_nil_iff : tree.listing item = [] ↔ tree = leaf := by
  cases tree <;> simp [listing]

end Tree

/-- A node above the focus, with the subtree on its other side. -/
structure Frame (ι δ : Type) where
  side : Side
  id : ι
  data : δ
  sibling : Tree ι δ

/-- The frames above the focus, the closest one first. -/
abbrev Path (ι δ : Type) := List (Frame ι δ)

namespace Path

/-- The tree with `tree` as its focus. -/
def plug : Path ι δ → Tree ι δ → Tree ι δ
  | [], tree => tree
  | frame :: rest, tree =>
    plug rest (.join frame.side tree frame.id frame.data frame.sibling)

/-- The pointer from the focus upwards. -/
def parent (outer : Option ι) : Path ι δ → Option ι
  | [] => outer
  | frame :: _ => some frame.id

/-- The pointer to the uppermost node. -/
def entry (hole : Option ι) : Path ι δ → Option ι
  | [] => hole
  | frame :: rest => entry (some frame.id) rest

def ids : Path ι δ → List ι
  | [] => []
  | frame :: rest => frame.id :: (frame.sibling.ids ++ ids rest)

/-- What `item` gives for the nodes before the focus. -/
def before (item : ι → δ → α) : Path ι δ → List α
  | [] => []
  | frame :: rest =>
    match frame.side with
    | .left => before item rest
    | .right =>
      before item rest ++ frame.sibling.listing item ++ [item frame.id frame.data]

/-- What `item` gives for the nodes after the focus. -/
def after (item : ι → δ → α) : Path ι δ → List α
  | [] => []
  | frame :: rest =>
    match frame.side with
    | .left =>
      item frame.id frame.data :: (frame.sibling.listing item ++ after item rest)
    | .right => after item rest

@[simp] theorem parent_nil (outer : Option ι) : parent outer ([] : Path ι δ) = outer := rfl

@[simp] theorem parent_cons (outer : Option ι) (frame : Frame ι δ) :
    parent outer (frame :: path) = some frame.id := rfl

@[simp] theorem entry_nil (hole : Option ι) : entry hole ([] : Path ι δ) = hole := rfl

@[simp] theorem entry_cons (hole : Option ι) (frame : Frame ι δ) :
    entry hole (frame :: path) = entry (some frame.id) path := rfl

@[simp] theorem plug_append : plug (path ++ upper) tree = plug upper (plug path tree) := by
  induction path generalizing tree with
  | nil => rfl
  | cons frame rest ih => exact ih

theorem listing_plug :
    (plug path tree).listing item = before item path ++ tree.listing item ++ after item path := by
  induction path generalizing tree with
  | nil => simp [plug, before, after]
  | cons frame rest ih =>
    obtain ⟨side, id, data, sibling⟩ := frame
    rw [plug, ih]
    cases side <;> simp [before, after, Tree.join, Tree.listing]

theorem root_plug : (plug path tree).root = entry tree.root path := by
  induction path generalizing tree with
  | nil => rfl
  | cons frame rest ih => rw [plug, ih, Tree.root_join, entry]

theorem ids_perm : (before (fun id _ => id) path ++
    after (fun id _ => id) path).Perm (ids path) := by
  induction path with
  | nil => exact .refl _
  | cons frame rest ih =>
    obtain ⟨side, id, data, sibling⟩ := frame
    have moved : ((before (fun id _ => id) rest ++ sibling.ids) ++
        after (fun id _ => id) rest).Perm (sibling.ids ++ ids rest) := by
      refine (perm_append_comm.append_right _).trans ?_
      rw [append_assoc]
      exact ih.append_left _
    cases side with
    | left =>
      refine perm_middle.trans (.cons _ ?_)
      rw [← append_assoc]
      exact moved
    | right =>
      simp only [before, after, ids]
      rw [append_assoc _ [id]]
      exact perm_middle.trans (.cons _ moved)

theorem entry_cons_mem (hole : Option ι) (frame : Frame ι δ) (path : Path ι δ) :
    ∃ id, entry hole (frame :: path) = some id ∧ id ∈ ids (frame :: path) := by
  induction path generalizing hole frame with
  | nil => exact ⟨frame.id, rfl, by simp [ids]⟩
  | cons upper rest ih =>
    obtain ⟨id, rooted, listed⟩ := ih (some frame.id) upper
    exact ⟨id, rooted, by simp [ids.eq_2 frame, listed]⟩

theorem ids_plug_perm : (plug path tree).ids.Perm (ids path ++ tree.ids) := by
  rw [Tree.ids, listing_plug, append_assoc]
  refine (perm_append_comm.append_left _).trans ?_
  rw [← append_assoc]
  exact ids_perm.append_right _

theorem exists_plug {whole : Tree ι δ} {id : ι} (inside : id ∈ whole.ids) :
    ∃ path left data right, whole = plug path (.node left id data right) := by
  induction whole with
  | leaf => cases inside
  | node left place data right leftIh rightIh =>
    simp only [Tree.ids, Tree.listing, mem_append, mem_cons] at inside
    obtain inside | rfl | inside := inside
    · obtain ⟨path, first, here, second, rfl⟩ := leftIh inside
      exact ⟨path ++ [⟨.left, place, data, right⟩], first, here, second, by rw [plug_append]; rfl⟩
    · exact ⟨[], left, data, right, rfl⟩
    · obtain ⟨path, first, here, second, rfl⟩ := rightIh inside
      exact ⟨path ++ [⟨.right, place, data, left⟩], first, here, second, by rw [plug_append]; rfl⟩

end Path

section

variable (cells : ι → Cell ι δ)

/-- The cells hold a tree whose root points to `parent`. -/
def Linked (parent : Option ι) : Tree ι δ → Prop
  | .leaf => True
  | .node left id data right =>
    cells id = ⟨left.root, right.root, parent, data⟩ ∧
      Linked (some id) left ∧ Linked (some id) right

/-- The cells hold the frames of a path, with `hole` as the pointer to the
focus and `outer` as the pointer upwards from the uppermost frame. -/
def LinkedPath (outer : Option ι) : Option ι → Path ι δ → Prop
  | _, [] => True
  | hole, frame :: rest =>
    cells frame.id = .ofSide frame.side hole frame.sibling.root
        (Path.parent outer rest) frame.data ∧
      Linked cells (some frame.id) frame.sibling ∧
      LinkedPath outer (some frame.id) rest

variable {cells} {id : ι}

theorem linked_join : Linked cells parent (.join side near id data far) ↔
      cells id = .ofSide side near.root far.root parent data ∧
        Linked cells (some id) near ∧ Linked cells (some id) far := by
  cases side with
  | left => exact Iff.rfl
  | right => exact and_congr_right fun _ => and_comm

variable [DecidableEq ι]

theorem linked_update (outside : id ∉ tree.ids) :
    Linked (Function.update cells id content) parent tree ↔ Linked cells parent tree := by
  induction tree generalizing parent with
  | leaf => exact Iff.rfl
  | node left place data right leftIh rightIh =>
    simp only [Tree.ids, Tree.listing, mem_append, mem_cons, not_or] at outside
    obtain ⟨notLeft, notHere, notRight⟩ := outside
    rw [Linked, Linked, leftIh notLeft, rightIh notRight,
      Function.update_of_ne (Ne.symm notHere)]

theorem linkedPath_update (outside : id ∉ Path.ids path) :
    LinkedPath (Function.update cells id content) outer hole path ↔
      LinkedPath cells outer hole path := by
  induction path generalizing hole with
  | nil => exact Iff.rfl
  | cons frame rest ih =>
    simp only [Path.ids, mem_append, mem_cons, not_or] at outside
    obtain ⟨notHere, notSibling, notRest⟩ := outside
    rw [LinkedPath, LinkedPath, ih notRest,
      linked_update notSibling, Function.update_of_ne (Ne.symm notHere)]

end

/-- A part of the store. -/
inductive Piece (ι δ : Type) where
  | cell (id : ι) (content : Cell ι δ)
  | tree (parent : Option ι) (subtree : Tree ι δ)
  | path (outer hole : Option ι) (frames : Path ι δ)

namespace Piece

def ids : Piece ι δ → List ι
  | .cell id _ => [id]
  | .tree _ subtree => subtree.ids
  | .path _ _ frames => Path.ids frames

def Held (cells : ι → Cell ι δ) : Piece ι δ → Prop
  | .cell id content => cells id = content
  | .tree parent subtree => Linked cells parent subtree
  | .path outer hole frames => LinkedPath cells outer hole frames

theorem held_update [DecidableEq ι] {id : ι} {piece : Piece ι δ} (outside : id ∉ piece.ids) :
    piece.Held (Function.update cells id content) ↔ piece.Held cells := by
  cases piece with
  | cell place content =>
    have differ : place ≠ id := by
      intro same
      exact outside (by simp [ids, same])
    rw [Held, Held, Function.update_of_ne differ]
  | tree parent tree => exact linked_update outside
  | path outer hole path => exact linkedPath_update outside

end Piece

/-- The cells hold all pieces, and no cell belongs to two of them. -/
structure Pieces (cells : ι → Cell ι δ) (pieces : List (Piece ι δ)) : Prop where
  held : ∀ piece ∈ pieces, piece.Held cells
  distinct : (pieces.flatMap Piece.ids).Nodup

namespace Pieces

variable {cells : ι → Cell ι δ} {pieces after : List (Piece ι δ)} {id : ι}

theorem cell_eq (holding : Pieces cells pieces)
    (listed : .cell id content ∈ pieces) : cells id = content :=
  holding.held _ listed

theorem perm (holding : Pieces cells pieces)
    (permutation : pieces.Perm others) : Pieces cells others where
  held := by
    intro piece listed
    exact holding.held piece (permutation.mem_iff.mpr listed)
  distinct := (permutation.flatMap_right Piece.ids).nodup_iff.mp holding.distinct

theorem front (before : List (Piece ι δ)) (holding : Pieces cells (before ++ piece :: after)) :
    Pieces cells (piece :: (before ++ after)) :=
  holding.perm perm_middle

theorem swap (before : List (Piece ι δ))
    (holding : Pieces cells (before ++ first :: second :: after)) :
    Pieces cells (before ++ second :: first :: after) :=
  holding.perm (Perm.append_left before (.swap _ _ _))

theorem sublist (holding : Pieces cells pieces)
    (sub : others.Sublist pieces) : Pieces cells others where
  held := by
    intro piece listed
    exact holding.held piece (sub.subset listed)
  distinct := holding.distinct.sublist (sub.flatMap Piece.ids)

/-- A cell of no piece may be added. -/
theorem add (holding : Pieces cells pieces) (outside : ∀ piece ∈ pieces, id ∉ piece.ids) :
    Pieces cells (.cell id (cells id) :: pieces) where
  held := by
    intro piece listed
    obtain rfl | listed := mem_cons.mp listed
    · rfl
    · exact holding.held piece listed
  distinct := by
    refine nodup_cons.mpr ⟨?_, holding.distinct⟩
    simpa [mem_flatMap] using outside

/-- Pieces may be exchanged for pieces over the same cells. -/
theorem exchange (before old new : List (Piece ι δ))
    (sameContents : (∀ piece ∈ old, piece.Held cells) ↔ ∀ piece ∈ new, piece.Held cells)
    (sameCells : (old.flatMap Piece.ids).Perm (new.flatMap Piece.ids)) :
    Pieces cells (before ++ (old ++ after)) ↔ Pieces cells (before ++ (new ++ after)) := by
  have sameDistinct : ((before ++ (old ++ after)).flatMap Piece.ids).Nodup ↔
      ((before ++ (new ++ after)).flatMap Piece.ids).Nodup := by
    simp only [flatMap_append]
    exact ((sameCells.append_right _).append_left _).nodup_iff
  have sameHeld : (∀ piece ∈ before ++ (old ++ after), piece.Held cells) ↔
      ∀ piece ∈ before ++ (new ++ after), piece.Held cells := by
    simp only [forall_mem_append, sameContents]
  constructor
  · intro holding
    exact ⟨sameHeld.mp holding.held, sameDistinct.mp holding.distinct⟩
  · intro holding
    exact ⟨sameHeld.mpr holding.held, sameDistinct.mpr holding.distinct⟩

variable {outer hole : Option ι} {frame : Frame ι δ} {path : Path ι δ}

section

variable (before : List (Piece ι δ))

include before

theorem tree_join (side : Side) :
    Pieces cells (before ++ .tree parent (.join side near id data far) :: after) ↔
      Pieces cells (before ++ .cell id (.ofSide side near.root far.root parent data) ::
          .tree (some id) near :: .tree (some id) far :: after) := by
  refine exchange before [.tree parent (.join side near id data far)]
    [.cell id (.ofSide side near.root far.root parent data),
      .tree (some id) near, .tree (some id) far] ?_ ?_
  · simpa [Piece.Held] using linked_join
  · simpa [Piece.ids] using Tree.listing_join_perm side near far id data _

theorem closeTree (side : Side)
    (holding : Pieces cells (before ++ .cell id (.ofSide side nearRoot farRoot parent data) ::
        .tree (some id) near :: .tree (some id) far :: after)) (nearRooted : near.root = nearRoot)
    (farRooted : far.root = farRoot) :
    Pieces cells (before ++ .tree parent (.join side near id data far) :: after) := by
  subst nearRooted farRooted
  exact (tree_join before side).mpr holding

theorem path_cons :
    Pieces cells (before ++ .path outer hole (frame :: path) :: after) ↔ Pieces cells (before ++
        .cell frame.id (.ofSide frame.side hole frame.sibling.root
          (Path.parent outer path) frame.data) ::
          .tree (some frame.id) frame.sibling :: .path outer (some frame.id) path :: after) := by
  refine exchange before [.path outer hole (frame :: path)]
    [.cell frame.id (.ofSide frame.side hole frame.sibling.root
      (Path.parent outer path) frame.data),
      .tree (some frame.id) frame.sibling,
      .path outer (some frame.id) path] ?_ ?_
  · simp [Piece.Held, LinkedPath]
  · simp [Piece.ids, Path.ids]

theorem tree_leaf (parent : Option ι) :
    Pieces cells (before ++ .tree parent .leaf :: after) ↔ Pieces cells (before ++ after) := by
  refine exchange before [.tree parent .leaf] [] ?_ (.refl _)
  simp [Piece.Held, Linked]

theorem path_nil (outer hole : Option ι) :
    Pieces cells (before ++ .path outer hole [] :: after) ↔ Pieces cells (before ++ after) := by
  refine exchange before [.path outer hole []] [] ?_ (.refl _)
  simp [Piece.Held, LinkedPath]

theorem tree_plug : Pieces cells (before ++ .tree parent (path.plug tree) :: after) ↔
      Pieces cells (before ++ .tree (Path.parent parent path) tree ::
        .path parent tree.root path :: after) := by
  induction path generalizing tree with
  | nil =>
    refine exchange before [.tree parent tree] [.tree parent tree, .path parent tree.root []] ?_ ?_
    · simp [Piece.Held, LinkedPath]
    · simp [Piece.ids, Path.ids]
  | cons frame path ih =>
    have opened := @path_cons ι δ cells after parent tree.root frame path
      (before ++ [.tree (some frame.id) tree])
    rw [append_assoc, append_assoc] at opened
    rw [Path.plug, ih, Tree.root_join]
    refine (tree_join before frame.side).trans (Iff.trans ?_ opened.symm)
    exact ⟨fun holding => holding.swap before, fun holding => holding.swap before⟩

theorem outside (holding : Pieces cells (before ++ piece :: after)) (owned : place ∈ piece.ids)
    (listed : another ∈ before ++ after) : place ∉ another.ids := by
  intro shared
  have distinct := (holding.front before).distinct
  rw [flatMap_cons, nodup_append] at distinct
  exact distinct.2.2 place owned place (mem_flatMap.mpr ⟨another, listed, shared⟩) rfl

end

end Pieces

/-- A store with the pointer to the root of the tree. -/
structure Links (ι δ : Type) where
  root : Option ι
  cells : ι → Cell ι δ

namespace Links

variable [DecidableEq ι]

def modify (links : Links ι δ) (id : ι) (change : Cell ι δ → Cell ι δ) : Links ι δ := { links with
    cells := Function.update links.cells id (change (links.cells id)) }

/-- Change the parent of a node, if there is a node. -/
def reparent (links : Links ι δ) (child parent : Option ι) : Links ι δ :=
  match child with
  | none => links
  | some id => links.modify id fun cell => cell.withParent parent

/-- Change the pointer to a node in its parent, or the one to the root. -/
def replaceChild (links : Links ι δ) (parent : Option ι) (old : ι) (new : Option ι) : Links ι δ :=
  match parent with
  | none => { links with root := new }
  | some id => links.modify id fun cell => cell.replaceChild old new

@[simp] theorem root_modify (links : Links ι δ) (id : ι) (change : Cell ι δ → Cell ι δ) :
    (links.modify id change).root = links.root := rfl

@[simp] theorem root_reparent (links : Links ι δ) (child parent : Option ι) :
    (links.reparent child parent).root = links.root := by
  cases child <;> rfl

variable {links : Links ι δ} {after : List (Piece ι δ)} {id : ι}

section

variable (before : List (Piece ι δ))

include before

/-- A write changes the piece of the cell written. -/
theorem pieces_modify (change : Cell ι δ → Cell ι δ)
    (holding : Pieces links.cells (before ++ .cell id content :: after)) :
    Pieces (links.modify id change).cells (before ++ .cell id (change content) :: after) where
  held := by
    have read : links.cells id = content := holding.cell_eq (by simp)
    have frame : ∀ piece ∈ before ++ after, piece.Held (links.modify id change).cells := by
      intro piece listed
      have outside : id ∉ piece.ids := holding.outside before (by simp [Piece.ids]) listed
      refine (Piece.held_update outside).mpr (holding.held piece ?_)
      simp only [mem_append, mem_cons] at listed ⊢
      exact listed.imp_right .inr
    intro piece listed
    simp only [mem_append, mem_cons] at listed frame
    obtain listed | rfl | listed := listed
    · exact frame piece (.inl listed)
    · simp [Piece.Held, modify, read]
    · exact frame piece (.inr listed)
  distinct := by
    have distinct := holding.distinct
    simpa [Piece.ids] using distinct

theorem pieces_reparent (target : Option ι)
    (holding : Pieces links.cells (before ++ .tree parent tree :: after)) :
    Pieces (links.reparent tree.root target).cells (before ++ .tree target tree :: after) := by
  cases tree with
  | leaf =>
    refine (Pieces.exchange before [.tree parent .leaf] [.tree target .leaf] ?_ ?_).mp holding
    · simp [Piece.Held, Linked]
    · exact .refl _
  | node left id data right =>
    have opened := (Pieces.tree_join before .left).mp holding
    have written := pieces_modify before (fun cell => cell.withParent target) opened
    exact (Pieces.tree_join before .left).mpr written

theorem pieces_reparent_path (target : Option ι)
    (holding : Pieces links.cells (before ++ .path outer hole (frame :: path) :: after)) :
    Pieces (links.reparent (Path.entry hole (frame :: path)) target).cells
      (before ++ .path target hole (frame :: path) :: after) := by
  induction path generalizing before hole frame with
  | nil =>
    have written := pieces_modify before (fun cell => cell.withParent target)
      ((Pieces.path_cons before).mp holding)
    have dropped := (Pieces.path_nil (before ++ [_, _]) outer
      (some frame.id)).mp (by simpa using written)
    have regrouped := (Pieces.path_nil (before ++ [_, _]) target (some frame.id)).mpr dropped
    rw [append_assoc] at regrouped
    exact (Pieces.path_cons before).mpr regrouped
  | cons upper rest ih =>
    have opened := (Pieces.path_cons before).mp holding
    have written := ih (before ++ [.cell frame.id (.ofSide frame.side hole
        frame.sibling.root (some upper.id) frame.data),
        .tree (some frame.id) frame.sibling]) (by simpa using opened)
    exact (Pieces.path_cons before).mpr (by simpa using written)

theorem pieces_replaceChild_cons (new : Option ι)
    (holding : Pieces links.cells (before ++ .path outer (some old) (frame :: path) :: after))
    (owned : ∃ piece ∈ before ++ after, old ∈ piece.ids) :
    Pieces (links.replaceChild (some frame.id) old new).cells
      (before ++ .path outer new (frame :: path) :: after) := by
  have notSibling : frame.sibling.root ≠ some old := by
    intro rooted
    obtain ⟨piece, listed, inside⟩ := owned
    refine holding.outside before ?_ listed inside
    simp [Piece.ids, Path.ids, Tree.root_mem_ids rooted]
  have written := pieces_modify before (fun cell => cell.replaceChild old new)
    ((Pieces.path_cons before).mp holding)
  rw [Cell.replaceChild_ofSide _ _ _ _ _ notSibling] at written
  exact (Pieces.path_cons before).mpr written

/-- Whichever pointer leads to the focus is changed. -/
theorem pieces_replaceChild (new : Option ι) (rooted : links.root = Path.entry (some old) path)
    (holding : Pieces links.cells (before ++ .path none (some old) path :: after))
    (owned : ∃ piece ∈ before ++ after, old ∈ piece.ids) :
    let later := links.replaceChild (Path.parent none path) old new
    later.root = Path.entry new path ∧
      Pieces later.cells (before ++ .path none new path :: after) := by
  cases path with
  | nil =>
    exact ⟨rfl, (Pieces.path_nil before none new).mpr
      ((Pieces.path_nil before none (some old)).mp holding)⟩
  | cons frame path => exact ⟨rooted, pieces_replaceChild_cons before new holding owned⟩

end

end Links

/-- The store holds the tree with `tree` as its focus. -/
structure Holds (links : Links ι δ) (path : Path ι δ) (tree : Tree ι δ) : Prop where
  rooted : links.root = Path.entry tree.root path
  pieces : Pieces links.cells [.tree (Path.parent none path) tree, .path none tree.root path]

namespace Holds

variable {id : ι}

theorem intro (rooted : links.root = Path.entry hole path)
    (pieces : Pieces links.cells [.tree (Path.parent none path) tree, .path none hole path])
    (focused : tree.root = hole) : Holds links path tree := by
  subst focused
  exact ⟨rooted, pieces⟩

theorem leaf (rooted : links.root = none) : Holds links [] .leaf where
  rooted := rooted
  pieces := by
    refine ⟨?_, nodup_nil⟩
    simp [Piece.Held, Linked, LinkedPath]

theorem single (rooted : links.root = some id) (read : links.cells id = ⟨none, none, none, data⟩) :
    Holds links [] (.node .leaf id data .leaf) where
  rooted := rooted
  pieces := by
    refine ⟨?_, nodup_singleton id⟩
    simp [Piece.Held, Linked, LinkedPath, read, Tree.root]

theorem linked (holds : Holds links [] tree) : Linked links.cells none tree :=
  holds.pieces.held (.tree none tree) mem_cons_self

theorem distinct (holds : Holds links [] tree) : tree.ids.Nodup := by
  have distinct := holds.pieces.distinct
  simpa [Piece.ids, Path.ids] using distinct

theorem up : Holds links (frame :: path) tree ↔ Holds links path
    (.join frame.side tree frame.id frame.data frame.sibling) := by
  have samePieces : Pieces links.cells [.tree (some frame.id) tree,
        .path none tree.root (frame :: path)] ↔
      Pieces links.cells [.tree (Path.parent none path)
        (.join frame.side tree frame.id frame.data frame.sibling),
        .path none (some frame.id) path] := by
    refine (Pieces.path_cons [_]).trans (Iff.trans ?_ (Pieces.tree_join [] frame.side).symm)
    exact ⟨fun holding => holding.perm (.swap _ _ _), fun holding => holding.perm (.swap _ _ _)⟩
  constructor
  · intro ⟨rooted, pieces⟩
    exact ⟨by simpa using rooted, by simpa using samePieces.mp pieces⟩
  · intro ⟨rooted, pieces⟩
    exact ⟨by simpa using rooted, samePieces.mpr (by simpa using pieces)⟩

theorem plug : Holds links (path ++ upper) tree ↔ Holds links upper (path.plug tree) := by
  induction path generalizing tree with
  | nil => exact Iff.rfl
  | cons frame rest ih => exact up.trans ih

theorem whole (holds : Holds links path tree) : Holds links [] (path.plug tree) :=
  plug.mp (by rwa [append_nil])

theorem read (holds : Holds links path (.join side near id data far)) :
    links.cells id = .ofSide side near.root far.root (Path.parent none path) data :=
  ((Pieces.tree_join [] side).mp holds.pieces).cell_eq (by simp)

theorem read_parent (holds : Holds links (frame :: path) tree) :
    links.cells frame.id = .ofSide frame.side tree.root frame.sibling.root
      (Path.parent none path) frame.data :=
  (up.mp holds).read

theorem parent_root (holds : Holds links path tree) (focused : tree.root = some id) :
    (links.cells id).parent = Path.parent none path := by
  cases tree with
  | leaf => cases focused
  | node left place data right =>
    cases focused
    have here : Holds links path (.join .left left id data right) := holds
    rw [here.read, Cell.parent_ofSide]

theorem toNear (holds : Holds links path (.join side near id data far)) :
    Holds links (⟨side, id, data, far⟩ :: path) near :=
  up.mpr holds

theorem toFar (holds : Holds links path (.join side near id data far)) :
    Holds links (⟨side.other, id, data, near⟩ :: path) far :=
  up.mpr (by simpa using holds)

theorem sibling_root_ne (holds : Holds links (frame :: path) tree)
    (focused : tree.root = some id) : frame.sibling.root ≠ some id := by
  intro rooted
  refine holds.pieces.outside [] (Tree.root_mem_ids focused) mem_cons_self ?_
  simp [Piece.ids, Path.ids, Tree.root_mem_ids rooted]

theorem root_ne (holds : Holds links (frame :: path) tree) : tree.root ≠ links.root := by
  obtain ⟨id, rooted, listed⟩ := Path.entry_cons_mem tree.root frame path
  rw [holds.rooted, rooted]
  intro focused
  exact holds.pieces.outside [] (Tree.root_mem_ids focused) mem_cons_self listed

theorem modify_outside [DecidableEq ι] (change : Cell ι δ → Cell ι δ) (holds : Holds links [] tree)
    (outside : place ∉ tree.ids) : Holds (links.modify place change) [] tree := by
  refine ⟨holds.rooted, ?_⟩
  have added := @Pieces.add _ _ _ _ place holds.pieces (by
    simpa [Piece.ids, Path.ids] using outside)
  have written := Links.pieces_modify [] change added
  exact written.sublist (sublist_cons_self ..)

theorem withData [DecidableEq ι] (holds : Holds links path (.join side near id data far)) :
    Holds (links.modify id fun cell => cell.withData other) path
      (.join side near id other far) := by
  refine ⟨by simpa using holds.rooted, ?_⟩
  have written := Links.pieces_modify [] (fun cell => cell.withData other)
    ((Pieces.tree_join [] side).mp holds.pieces)
  rw [Cell.withData_ofSide] at written
  simpa using (Pieces.tree_join [] side).mpr written

end Holds

end LinkedTrees

end MixUpOS.Library
