import Mathlib.Order.Nat
import MixUpOS.AK.RedBlackTreeInvariant

/-!
# Runs of a red-black tree

A run inserts and removes nodes and writes to nodes that are not in the tree.
It follows the insertions with a list of the members.
-/

namespace MixUpOS.AK

open Library.LinkedTrees

variable {K : Type}

def RootIsBlack : NodeTree K → Prop
  | .leaf => True
  | .node _ _ data _ => data.color = .black

def NoRedChild : NodeTree K → Prop
  | .leaf => True
  | .node left _ data right =>
    (data.color = .red → RootIsBlack left ∧ RootIsBlack right) ∧ NoRedChild left ∧ NoRedChild right

/-- The number of black nodes on each way from the root to a null pointer. -/
def blackCounts : NodeTree K → List Nat
  | .leaf => [0]
  | .node left _ data right =>
    (blackCounts left ++ blackCounts right).map fun count =>
      if data.color = .black then count + 1 else count

theorem Balanced.rootIsBlack (balanced : Balanced shape .black height) : RootIsBlack shape := by
  cases balanced with
  | leaf => trivial
  | black colored left right => exact colored

theorem Balanced.noRedChild (balanced : Balanced shape color height) : NoRedChild shape := by
  induction balanced with
  | leaf => trivial
  | red colored left right leftIh rightIh =>
    exact ⟨fun _ => ⟨left.rootIsBlack, right.rootIsBlack⟩, leftIh, rightIh⟩
  | black colored left right leftIh rightIh =>
    refine ⟨fun red => ?_, leftIh, rightIh⟩
    rw [colored] at red
    cases red

theorem Balanced.blackCounts (balanced : Balanced shape color height) :
    ∀ count ∈ blackCounts shape, count = height := by
  induction balanced with
  | leaf =>
    intro count listed
    exact List.mem_singleton.mp listed
  | red colored left right leftIh rightIh =>
    intro count listed
    obtain ⟨below, belowListed, rfl⟩ := List.mem_map.mp listed
    rw [colored]
    obtain belowListed | belowListed := List.mem_append.mp belowListed
    · exact leftIh below belowListed
    · exact rightIh below belowListed
  | black colored left right leftIh rightIh =>
    intro count listed
    obtain ⟨below, belowListed, rfl⟩ := List.mem_map.mp listed
    rw [if_pos colored]
    obtain belowListed | belowListed := List.mem_append.mp belowListed
    · rw [leftIh below belowListed]
    · rw [rightIh below belowListed]

/-- A node as its constructor makes it. -/
def freshNode (key : K) : Node K := ⟨none, none, none, ⟨.red, key⟩⟩

theorem insertable_freshNode {tree : RedBlackTree K} {key : K}
    (fresh : tree.links.cells node = freshNode key) : tree.Insertable node where
  childless := by
    intro side
    rw [fresh]
    cases side <;> rfl
  red := by
    intro _
    rw [NodeLinks.color, fresh]
    rfl
  orphan := by
    intro _
    rw [fresh]
    rfl

/-- A tree and the nodes that were inserted and not removed. -/
structure TreeState (K : Type) where
  tree : RedBlackTree K
  members : List Nat

namespace TreeState

variable [LinearOrder K]

/-- The state is as a red-black tree of the given shape has to be. -/
structure InOrder (state : TreeState K) (shape : NodeTree K) : Prop where
  rooted : state.tree.links.root = shape.root
  linked : Linked state.tree.links.cells none shape
  distinct : shape.ids.Nodup
  contents : shape.ids.Perm state.members
  sorted : (entries shape).Pairwise fun first second => first.2 ≤ second.2
  rootIsBlack : RootIsBlack shape
  noRedChild : NoRedChild shape
  sameBlacks : ∃ height, ∀ count ∈ blackCounts shape, count = height
  size : state.tree.size = shape.ids.length
  minimum : state.tree.minimum = shape.ids.head?

/-- Nodes are only inserted if the tree admits them. -/
inductive Step (admits : RedBlackTree K → Nat → Prop) : TreeState K → TreeState K → Prop where
  | write {state : TreeState K} {node : Nat} (content : Node K) (outside : node ∉ state.members) :
      Step admits state { state with
          tree.links := state.tree.links.modify node fun _ => content }
  | insert {state : TreeState K} {node : Nat} {later : RedBlackTree K}
      (outside : node ∉ state.members) (admitted : admits state.tree node)
      (inserted : state.tree.insert node = some later) :
      Step admits state ⟨later, node :: state.members⟩
  | remove {state : TreeState K} {node : Nat} {later : RedBlackTree K}
      (inside : node ∈ state.members)
      (removed : state.tree.remove node = some later) :
      Step admits state ⟨later, state.members.erase node⟩

def start (nodes : Nat → Node K) : TreeState K := ⟨.empty nodes, []⟩

/-- The tree is valid and has the members as its nodes. -/
def Invariant (state : TreeState K) : Prop :=
  ∃ shape, state.tree.Valid shape ∧ shape.ids.Perm state.members

variable {state : TreeState K} {nodes : Nat → Node K}

theorem Step.invariant (step : Step RedBlackTree.Insertable state later)
    (invariant : state.Invariant) : later.Invariant := by
  obtain ⟨shape, valid, contents⟩ := invariant
  cases step with
  | write content outside =>
    have notInside := fun listed => outside (contents.mem_iff.mp listed)
    exact ⟨shape, ⟨valid.holds.modify_outside (fun _ => content) notInside,
      valid.sorted, valid.balanced, valid.size, valid.minimum⟩, contents⟩
  | insert outside admitted inserted =>
    have notInside := fun listed => outside (contents.mem_iff.mp listed)
    obtain ⟨tree, laterShape, evaluated, laterValid, laterContents⟩ :=
      RedBlackTree.insert_valid valid notInside admitted
    obtain rfl : _ = tree := Option.some.inj (inserted.symm.trans evaluated)
    exact ⟨laterShape, laterValid, laterContents.trans (contents.cons _)⟩
  | remove inside removed =>
    obtain ⟨tree, laterShape, evaluated, laterValid, laterContents⟩ :=
      RedBlackTree.remove_valid valid (contents.mem_iff.mpr inside)
    obtain rfl : _ = tree := Option.some.inj (removed.symm.trans evaluated)
    refine ⟨laterShape, laterValid, ?_⟩
    rw [laterContents]
    exact contents.erase _

theorem Invariant.inOrder (invariant : state.Invariant) : ∃ shape, state.InOrder shape := by
  obtain ⟨shape, valid, contents⟩ := invariant
  obtain ⟨height, balanced⟩ := valid.balanced
  exact ⟨shape, valid.holds.rooted, valid.holds.linked, valid.holds.distinct,
    contents, valid.sorted, balanced.rootIsBlack, balanced.noRedChild,
    ⟨height, balanced.blackCounts⟩, valid.size, valid.minimum⟩

theorem reachable_invariant
    (run : Relation.ReflTransGen (Step RedBlackTree.Insertable) (start nodes) state) :
    state.Invariant := by
  induction run with
  | refl => exact ⟨.leaf, ⟨Holds.leaf rfl, .nil, ⟨0, .leaf⟩, rfl, rfl⟩, .refl _⟩
  | tail _ step ih => exact step.invariant ih

/-- In every state of a run the tree is in order, and no operation fails a
`VERIFY` or dereferences a null pointer. -/
theorem reachable_inOrder
    (run : Relation.ReflTransGen (Step RedBlackTree.Insertable) (start nodes) state) :
    (∃ shape, state.InOrder shape) ∧ (∀ node, node ∉ state.members → state.tree.Insertable node →
        ∃ tree, state.tree.insert node = some tree) ∧
      ∀ node ∈ state.members, ∃ tree, state.tree.remove node = some tree := by
  have invariant := reachable_invariant run
  refine ⟨invariant.inOrder, ?_, ?_⟩
  · intro node outside insertable
    obtain ⟨shape, valid, contents⟩ := invariant
    obtain ⟨tree, _, inserted, _⟩ := RedBlackTree.insert_valid valid
      (fun listed => outside (contents.mem_iff.mp listed)) insertable
    exact ⟨tree, inserted⟩
  · intro node inside
    obtain ⟨shape, valid, contents⟩ := invariant
    obtain ⟨tree, _, removed, _⟩ := RedBlackTree.remove_valid valid (contents.mem_iff.mpr inside)
    exact ⟨tree, removed⟩

def threeNodes : Nat → Node Nat
  | 0 => freshNode 30
  | 1 => freshNode 10
  | _ => freshNode 20

theorem exists_run_two :
    ∃ state, Relation.ReflTransGen (Step RedBlackTree.Insertable) (start threeNodes) state ∧
      state.members = [1, 0] := by
  have first : ((start threeNodes).tree.insert 0).map
      (fun tree => (tree.links.cells 1, (tree.insert 1).isSome)) = some (freshNode 10, true) := by
    decide +kernel
  obtain ⟨one, insertedOne, facts⟩ := Option.map_eq_some_iff.mp first
  obtain ⟨fresh, succeeds⟩ := Prod.mk.inj facts
  obtain ⟨two, insertedTwo⟩ := Option.isSome_iff_exists.mp succeeds
  have stepOne : Step RedBlackTree.Insertable (start threeNodes) ⟨one, [0]⟩ := by
    refine .insert (by simp [start]) ?_ insertedOne
    exact @insertable_freshNode Nat _ _ 30 rfl
  have stepTwo : Step RedBlackTree.Insertable ⟨one, [0]⟩ ⟨two, [1, 0]⟩ :=
    .insert (by simp) (insertable_freshNode fresh) insertedTwo
  exact ⟨_, .tail (.single stepOne) stepTwo, rfl⟩

theorem reachable_inOrder_two :
    ∃ state, Relation.ReflTransGen (Step RedBlackTree.Insertable) (start threeNodes) state ∧
      state.members = [1, 0] ∧ ∃ shape, state.InOrder shape := by
  obtain ⟨state, run, members⟩ := exists_run_two
  exact ⟨state, run, members, (reachable_inOrder run).1⟩

def Anything (_ : RedBlackTree Nat) (_ : Nat) : Prop := True

/-- The first node is inserted and removed, then the second is inserted. -/
def replaceRoot : Option (RedBlackTree Nat) := do
  let tree ← (start threeNodes).tree.insert 0
  let tree ← tree.remove 0
  tree.insert 1

theorem replaceRoot_run {tree : RedBlackTree Nat} (evaluated : replaceRoot = some tree) :
    Relation.ReflTransGen (Step Anything) (start threeNodes) ⟨tree, [1]⟩ := by
  rw [replaceRoot] at evaluated
  obtain ⟨one, inserted, evaluated⟩ := Option.bind_eq_some_iff.mp evaluated
  obtain ⟨two, removed, evaluated⟩ := Option.bind_eq_some_iff.mp evaluated
  have stepOne : Step Anything (start threeNodes) ⟨one, [0]⟩ :=
    .insert (by simp [start]) trivial inserted
  have stepTwo : Step Anything ⟨one, [0]⟩ ⟨two, [0].erase 0⟩ :=
    .remove (List.mem_singleton_self 0) removed
  have stepThree : Step Anything ⟨two, []⟩ ⟨tree, [1]⟩ := .insert (by simp) trivial evaluated
  exact ((Relation.ReflTransGen.single stepOne).tail stepTwo).tail stepThree

theorem not_inOrder_of_cells {tree : RedBlackTree Nat} (root : tree.links.root = some 1)
    (below : tree.links.cells 0 = ⟨none, none, some 1, ⟨.black, 30⟩⟩)
    (above : tree.links.cells 1 = ⟨none, some 0, none, ⟨.black, 10⟩⟩)
    {members : List Nat} (shape : NodeTree Nat) : ¬ InOrder ⟨tree, members⟩ shape := by
  intro inOrder
  obtain ⟨height, sameBlacks⟩ := inOrder.sameBlacks
  have rooted := inOrder.rooted
  have linked := inOrder.linked
  simp only [root] at rooted
  cases shape with
  | leaf => cases rooted
  | node left id data right =>
    obtain rfl : 1 = id := Option.some.inj rooted
    obtain ⟨here, _, rightLinked⟩ := linked
    simp only [above, Cell.mk.injEq] at here
    obtain ⟨noLeft, rightRoot, _, rfl⟩ := here
    cases left with
    | node => cases noLeft
    | leaf =>
      cases right with
      | leaf => cases rightRoot
      | node first place placeData second =>
        obtain rfl : 0 = place := Option.some.inj rightRoot
        obtain ⟨lower, _, _⟩ := rightLinked
        simp only [below, Cell.mk.injEq] at lower
        obtain ⟨noFirst, _, _, rfl⟩ := lower
        cases first with
        | node => cases noFirst
        | leaf =>
          have short := sameBlacks 1 (by simp [blackCounts])
          have long := sameBlacks 2 (by simp [blackCounts])
          omega

/-- A node that was the root is black when it is inserted again. -/
theorem reinsertion_out_of_order :
    (∃ state, Relation.ReflTransGen (Step Anything) (start threeNodes)
        state ∧ ∀ shape, ¬ state.InOrder shape) ∧
      ∃ state, Relation.ReflTransGen (Step Anything) (start threeNodes)
          state ∧ 0 ∉ state.members ∧ state.tree.insert 0 = none := by
  constructor
  · have facts : (replaceRoot.bind fun tree => tree.insert 0).map
        (fun tree => (tree.links.root, tree.links.cells 0, tree.links.cells 1)) =
        some (some 1, ⟨none, none, some 1, ⟨.black, 30⟩⟩, ⟨none, some 0, none, ⟨.black, 10⟩⟩) := by
      decide +kernel
    obtain ⟨last, evaluated, cells⟩ := Option.map_eq_some_iff.mp facts
    obtain ⟨tree, replaced, inserted⟩ := Option.bind_eq_some_iff.mp evaluated
    simp only [Prod.mk.injEq] at cells
    have step : Step Anything ⟨tree, [1]⟩ ⟨last, [0, 1]⟩ := .insert (by simp) trivial inserted
    exact ⟨_, (replaceRoot_run replaced).tail step,
      not_inOrder_of_cells cells.1 cells.2.1 cells.2.2⟩
  · have facts : (replaceRoot.bind fun tree => tree.insert 2).map
        (fun tree => (tree.insert 0).isNone) = some true := by
      decide +kernel
    obtain ⟨last, evaluated, fails⟩ := Option.map_eq_some_iff.mp facts
    obtain ⟨tree, replaced, inserted⟩ := Option.bind_eq_some_iff.mp evaluated
    have step : Step Anything ⟨tree, [1]⟩ ⟨last, [2, 1]⟩ := .insert (by simp) trivial inserted
    exact ⟨_, (replaceRoot_run replaced).tail step, by simp, Option.isNone_iff_eq_none.mp fails⟩

end TreeState

namespace RedBlackTree

variable [LinearOrder K] (tree : RedBlackTree K)

/-- The nodes and keys that an iterator and its `++` go through. -/
def visited : Nat → Option Nat → Option (List (Nat × K))
  | _, none => some []
  | 0, some _ => none
  | bound + 1, some node => do
    let next ← tree.links.successor (tree.size + 1) node
    let rest ← visited bound next
    return (node, (tree.links.cells node).data.key) :: rest

variable {tree}

theorem Valid.visited_eq (valid : tree.Valid shape) (split : entries shape = before ++ rest)
    (enough : rest.length ≤ bound) : tree.visited bound (rest.map Prod.fst).head? = some rest := by
  -- By induction on what is left; the successor is the first of it.
  induction rest generalizing before bound with
  | nil => cases bound <;> rfl
  | cons entry rest ih =>
    obtain ⟨node, key⟩ := entry
    obtain ⟨bound, rfl⟩ := Nat.exists_eq_add_one.mpr (Nat.zero_lt_of_lt enough)
    obtain ⟨path, left, data, right, rfl⟩ :=
      Path.exists_plug (show node ∈ shape.ids by simp [ids_eq_map, split])
    have size := length_le_ids.trans_eq valid.size.symm
    have rightShorter : right.ids.length ≤ tree.size + 1 := by
      simp only [Tree.ids, Tree.listing, List.length_append, List.length_cons] at size ⊢
      omega
    have next := successor_holds valid.focus rightShorter (by omega)
    have read : tree.links.cells node = .ofSide .left _ _ _ data := Holds.read valid.focus
    have fresh := valid.holds.distinct
    rw [ids_eq_map, split, List.map_append, List.map_cons, List.nodup_middle, List.nodup_cons,
      List.mem_append, not_or] at fresh
    obtain ⟨_, same, after⟩ := (List.append_cons_inj_of_notMem
      (fun listed => fresh.1.1 (List.mem_map.mpr ⟨(node, data.key), listed, rfl⟩))
      fun listed => fresh.1.2 (List.mem_map.mpr ⟨_, listed, rfl⟩)).mp
        (split.symm.trans entries_focus)
    rw [← after] at next
    rw [List.map_cons, List.head?_cons, visited, next, some_bind,
      ih (split.trans (List.append_cons ..)) (Nat.le_of_succ_le_succ enough), same, read]
    rfl

end RedBlackTree

namespace TreeState

variable [LinearOrder K]

/-- Iterating goes through the members, each once and in the order of their keys. -/
theorem reachable_visits_sorted {state : TreeState K} {nodes : Nat → Node K}
    (run : Relation.ReflTransGen (Step RedBlackTree.Insertable) (start nodes) state) :
    ∃ visited, state.tree.visited state.tree.size state.tree.minimum = some visited ∧
      (visited.map Prod.fst).Perm state.members ∧ (visited.map Prod.fst).Nodup ∧
      visited.Pairwise fun first second => first.2 ≤ second.2 := by
  obtain ⟨shape, valid, contents⟩ := reachable_invariant run
  refine ⟨entries shape, ?_, ?_⟩
  · rw [valid.minimum, ids_eq_map]
    exact valid.visited_eq (List.nil_append _).symm (by simp [valid.size, ids_eq_map])
  · rw [← ids_eq_map]
    exact ⟨contents, valid.holds.distinct, valid.sorted⟩

theorem reachable_visits_sorted_two :
    ∃ state, Relation.ReflTransGen (Step RedBlackTree.Insertable) (start threeNodes) state ∧
      ∃ visited, state.tree.visited state.tree.size state.tree.minimum = some visited ∧
        (visited.map Prod.fst).Perm [1, 0] ∧
        visited.Pairwise fun first second => first.2 ≤ second.2 := by
  obtain ⟨state, run, members⟩ := exists_run_two
  obtain ⟨visited, isVisited, contents, _, sorted⟩ := reachable_visits_sorted run
  exact ⟨state, run, visited, isVisited, members ▸ contents, sorted⟩

end TreeState

end MixUpOS.AK
