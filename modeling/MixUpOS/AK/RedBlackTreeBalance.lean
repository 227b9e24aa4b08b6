import MixUpOS.AK.RedBlackTree

/-!
# Balanced trees and paths

A tree is balanced if no red node has a red child and all ways down to a leaf
meet the same number of black nodes.  While a tree is repaired, the subtree at
the focus and the path above it are balanced on their own.
-/

namespace MixUpOS.AK

open Library Library.LinkedTrees

variable {K : Type}

theorem Color.eq_black {color : Color} (notRed : color ≠ .red) : color = .black := by
  cases color with
  | red => exact absurd rfl notRed
  | black => rfl

abbrev NodeTree (K : Type) := Tree Nat (NodeData K)

abbrev NodePath (K : Type) := Path Nat (NodeData K)

/-- The nodes and their keys, in order. -/
def entries (tree : NodeTree K) : List (Nat × K) := tree.listing fun id data => (id, data.key)

@[simp] theorem entries_leaf : entries (.leaf : NodeTree K) = [] := rfl

/-- The tree with another color at its root. -/
def recolor (color : Color) : NodeTree K → NodeTree K
  | .leaf => .leaf
  | .node left id data right => .node left id { data with color } right

/-- The color of the root and the number of black nodes on each way down. -/
inductive Balanced : NodeTree K → Color → Nat → Prop where
  | leaf : Balanced .leaf .black 0
  | red {left right : NodeTree K} {id : Nat} {data : NodeData K} {height : Nat}
      (colored : data.color = .red)
      (leftBalanced : Balanced left .black height)
      (rightBalanced : Balanced right .black height) :
      Balanced (.node left id data right) .red height
  | black {left right : NodeTree K} {id : Nat} {data : NodeData K}
      {height : Nat} {leftColor rightColor : Color}
      (colored : data.color = .black)
      (leftBalanced : Balanced left leftColor height)
      (rightBalanced : Balanced right rightColor height) :
      Balanced (.node left id data right) .black (height + 1)

variable {side : Side} {near far tree : NodeTree K} {id : Nat} {data : NodeData K}
  {color pathColor : Color} {height : Nat} {path : NodePath K} {frame : Frame Nat (NodeData K)}

theorem balanced_join_red : Balanced (.join side near id data far) .red height ↔
      data.color = .red ∧ Balanced near .black height ∧ Balanced far .black height := by
  cases side with
  | left =>
    constructor
    · intro balanced
      cases balanced with
      | red colored near far => exact ⟨colored, near, far⟩
    · intro ⟨colored, near, far⟩
      exact .red colored near far
  | right =>
    constructor
    · intro balanced
      cases balanced with
      | red colored far near => exact ⟨colored, near, far⟩
    · intro ⟨colored, near, far⟩
      exact .red colored far near

theorem balanced_join_black : Balanced (.join side near id data far) .black height ↔
      ∃ below nearColor farColor, height = below + 1 ∧
        data.color = .black ∧ Balanced near nearColor below ∧ Balanced far farColor below := by
  cases side with
  | left =>
    constructor
    · intro balanced
      cases balanced with
      | black colored near far => exact ⟨_, _, _, rfl, colored, near, far⟩
    · rintro ⟨below, nearColor, farColor, rfl, colored, near, far⟩
      exact .black colored near far
  | right =>
    constructor
    · intro balanced
      cases balanced with
      | black colored far near => exact ⟨_, _, _, rfl, colored, near, far⟩
    · rintro ⟨below, nearColor, farColor, rfl, colored, near, far⟩
      exact .black colored far near

theorem Balanced.color_eq (balanced : Balanced (.join side near id data far) color height) :
    data.color = color := by
  cases color with
  | red => exact (balanced_join_red.mp balanced).1
  | black =>
    obtain ⟨_, _, _, _, colored, _⟩ := balanced_join_black.mp balanced
    exact colored

theorem Balanced.exists_join (side : Side) (balanced : Balanced tree color height)
    (inside : color = .red ∨ 0 < height) :
    ∃ near id data far, tree = .join side near id data far := by
  cases tree with
  | leaf =>
    cases balanced
    simp at inside
  | node left id data right =>
    cases side with
    | left => exact ⟨left, id, data, right, rfl⟩
    | right => exact ⟨right, id, data, left, rfl⟩

@[simp] theorem recolor_join :
    recolor color (.join side near id data far) = .join side near id { data with color } far := by
  cases side <;> rfl

theorem Balanced.blacken (balanced : Balanced tree color height) :
    ∃ later, Balanced (recolor .black tree) .black later := by
  cases balanced with
  | leaf => exact ⟨_, .leaf⟩
  | red colored left right | black colored left right => exact ⟨_, .black rfl left right⟩

/-- The color of the lowest frame, and the height of the trees that fit. -/
inductive BalancedPath : NodePath K → Color → Nat → Prop where
  | nil {height : Nat} : BalancedPath [] .black height
  | red {frame : Frame Nat (NodeData K)} {path : NodePath K} {height : Nat}
      (colored : frame.data.color = .red)
      (siblingBalanced : Balanced frame.sibling .black height)
      (inside : path ≠ []) (upper : BalancedPath path .black height) :
      BalancedPath (frame :: path) .red height
  | black {frame : Frame Nat (NodeData K)} {path : NodePath K}
      {height : Nat} {siblingColor upperColor : Color}
      (colored : frame.data.color = .black)
      (siblingBalanced : Balanced frame.sibling siblingColor height)
      (upper : BalancedPath path upperColor (height + 1)) :
      BalancedPath (frame :: path) .black height

/-- The tree fits in without two red nodes in a row. -/
def Fits (pathColor color : Color) : Prop := color = .red → pathColor = .black

theorem fits_black : Fits pathColor .black := by
  intro never
  cases never

theorem black_fits : Fits .black color := fun _ => rfl

theorem BalancedPath.plug (balancedPath : BalancedPath path pathColor height)
    (balanced : Balanced tree color height) (fits : Fits pathColor color) :
    ∃ rootColor rootHeight, Balanced (path.plug tree) rootColor rootHeight ∧
        (path ≠ [] ∨ color = .black → rootColor = .black) := by
  induction balancedPath generalizing tree color with
  | nil =>
    refine ⟨color, _, balanced, ?_⟩
    intro black
    exact black.resolve_left fun inside => inside rfl
  | @red frame path height colored siblingBalanced inside upper ih =>
    have black : color = .black := by
      refine Color.eq_black fun red => ?_
      exact absurd (fits red) (by decide)
    subst black
    have joined : Balanced (.join frame.side tree frame.id frame.data frame.sibling) .red height :=
      balanced_join_red.mpr ⟨colored, balanced, siblingBalanced⟩
    obtain ⟨rootColor, rootHeight, plugged, rootBlack⟩ := ih joined black_fits
    exact ⟨rootColor, rootHeight, plugged, fun _ => rootBlack (.inl inside)⟩
  | @black frame path height siblingColor upperColor colored siblingBalanced upper ih =>
    have joined : Balanced (.join frame.side tree frame.id frame.data
        frame.sibling) .black (height + 1) :=
      balanced_join_black.mpr ⟨_, _, _, rfl, colored, balanced, siblingBalanced⟩
    obtain ⟨rootColor, rootHeight, plugged, rootBlack⟩ := ih joined fits_black
    exact ⟨rootColor, rootHeight, plugged, fun _ => rootBlack (.inr rfl)⟩

theorem BalancedPath.replace (balanced : BalancedPath (lower ++ frame :: path) pathColor height)
    (sameColor : other.data.color = frame.data.color)
    (sameSibling : other.sibling = frame.sibling) :
    BalancedPath (lower ++ other :: path) pathColor height := by
  induction lower generalizing pathColor height with
  | nil =>
    cases balanced with
    | red colored siblingBalanced inside upper =>
      rw [← sameSibling] at siblingBalanced
      exact .red (sameColor.trans colored) siblingBalanced inside upper
    | black colored siblingBalanced upper =>
      rw [← sameSibling] at siblingBalanced
      exact .black (sameColor.trans colored) siblingBalanced upper
  | cons lowest lower ih =>
    cases balanced with
    | red colored siblingBalanced inside upper =>
      exact .red colored siblingBalanced (by simp) (ih upper)
    | black colored siblingBalanced upper => exact .black colored siblingBalanced (ih upper)

theorem Balanced.unplug (balanced : Balanced (path.plug tree) .black height) :
    ∃ pathColor color below, BalancedPath path pathColor below ∧
      Balanced tree color below ∧ Fits pathColor color ∧ (path = [] → color = .black) := by
  induction path generalizing tree with
  | nil =>
    exact ⟨.black, .black, height, .nil, balanced, fits_black, fun _ => rfl⟩
  | cons frame path ih =>
    obtain ⟨pathColor, color, below, upper, joined, fits, atRoot⟩ := ih balanced
    cases color with
    | red =>
      obtain ⟨colored, treeBalanced, siblingBalanced⟩ := balanced_join_red.mp joined
      have inside : path ≠ [] := by
        intro empty
        exact absurd (atRoot empty) (by decide)
      rw [fits rfl] at upper
      exact ⟨.red, .black, below, .red colored siblingBalanced inside upper, treeBalanced,
        fits_black, fun _ => rfl⟩
    | black =>
      obtain ⟨lower, treeColor, siblingColor, rfl, colored, treeBalanced,
        siblingBalanced⟩ := balanced_join_black.mp joined
      exact ⟨.black, treeColor, lower, .black colored siblingBalanced upper, treeBalanced,
        black_fits, fun empty => absurd empty (List.cons_ne_nil _ _)⟩

end MixUpOS.AK
