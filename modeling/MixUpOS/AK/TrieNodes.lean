import Mathlib.Data.List.Infix
import MixUpOS.AK.Trie

/-!
# Nodes of tries

A trie is a partial function from the values on a way to the node that they
lead to.  Some nodes are marked, and every other node has what its parent has:
the last node on a way then has what the longest marked part of the way says.
-/

namespace MixUpOS.AK.Trie

open List

variable {α β γ : Type} [DecidableEq α]

def nodeAt : List α → Trie α β → Option (Trie α β)
  | [], trie => some trie
  | value :: rest, trie => (trie.findChild value).bind (nodeAt rest)

section

variable {node : Trie α β} {way : List α}

theorem nodeAt_append (way rest : List α) (trie : Trie α β) :
    nodeAt (way ++ rest) trie = (nodeAt way trie).bind (nodeAt rest) := by
  induction way generalizing trie with
  | nil => rfl
  | cons value way ih =>
    rw [cons_append, nodeAt, nodeAt]
    cases trie.findChild value with
    | none => rfl
    | some child => exact ih child

section

variable (change : Trie α β → Trie α β)

include change

theorem lookup_modifyChild (children : List (α × Trie α β)) (other : α) :
    (modifyChild value change children).lookup other =
      if other = value then (children.lookup other).map change
      else children.lookup other := by
  induction children with
  | nil => simp [modifyChild]
  | cons entry children ih =>
    obtain ⟨first, child⟩ := entry
    rw [modifyChild]
    by_cases isFirst : value = first
    · subst isFirst
      simp only [BEq.rfl, if_true]
      rw [lookup_cons, lookup_cons]
      by_cases isOther : other = value
      · simp [isOther]
      · simp [isOther, beq_eq_false_iff_ne.mpr isOther]
    · rw [beq_eq_false_iff_ne.mpr isFirst]
      simp only [Bool.false_eq_true, if_false]
      rw [lookup_cons, lookup_cons, ih]
      by_cases isOther : other = first
      · simp [isOther, Ne.symm isFirst]
      · rw [beq_eq_false_iff_ne.mpr isOther]

theorem findChild_modifyAt (other : α) : (modifyAt change (value :: way) trie).findChild other =
      if other = value then (trie.findChild other).map (modifyAt change way)
      else trie.findChild other := by
  cases trie with
  | node metadata children => exact lookup_modifyChild (modifyAt change way) children other

theorem findChild_map (metadata own : β) (children : List (α × Trie α β)) :
    (Trie.node metadata (children.map fun entry =>
        (entry.1, change entry.2))).findChild value =
      ((Trie.node own children).findChild value).map change := by
  induction children with
  | nil => rfl
  | cons entry children ih =>
    change lookup _ (_ :: _) = (lookup _ (_ :: _)).map _
    rw [lookup_cons, lookup_cons]
    cases value == entry.1 with
    | true => rfl
    | false => exact ih

theorem metadataValue_modifyAt :
    (modifyAt change (value :: way) trie).metadataValue = trie.metadataValue := by
  cases trie
  rfl

end

theorem traverse_spec (traversed : traverseUntilLastAccessibleNode parts trie = (way, last, left)) :
    parts = way ++ left ∧ nodeAt way trie = some last ∧
      (left = [] ∨ ∃ value rest, left = value :: rest ∧ last.findChild value = none) := by
  induction parts generalizing trie way with
  | nil =>
    cases traversed
    exact ⟨rfl, rfl, .inl rfl⟩
  | cons value parts ih =>
    rw [traverseUntilLastAccessibleNode] at traversed
    cases found : trie.findChild value with
    | none =>
      rw [found] at traversed
      cases traversed
      exact ⟨rfl, rfl, .inr ⟨value, parts, rfl, found⟩⟩
    | some child =>
      rw [found] at traversed
      cases inner : traverseUntilLastAccessibleNode parts child with
      | mk innerWay others =>
        simp only [inner] at traversed
        cases traversed
        obtain ⟨isParts, isNode, ends⟩ := ih inner
        refine ⟨by rw [isParts]; rfl, ?_, ends⟩
        rw [nodeAt, found]
        exact isNode

end

section

variable (mark : β → Option γ)

/-- The mark of the node that values lead to. -/
def markAt (parts : List α) (trie : Trie α β) : Option γ :=
  (nodeAt parts trie).bind fun node => mark node.metadataValue

variable {mark} {trie node : Trie α β}

theorem markAt_nil : markAt mark [] trie = mark trie.metadataValue := rfl

theorem markAt_cons : markAt mark (value :: rest) trie =
    (trie.findChild value).bind (markAt mark rest) := by
  rw [markAt, nodeAt]
  cases trie.findChild value <;> rfl

theorem markAt_append (isNode : nodeAt way trie = some node) :
    markAt mark (way ++ rest) trie = markAt mark rest node := by
  rw [markAt, nodeAt_append, isNode]
  rfl

theorem markAt_modifyAt_append (isNode : nodeAt way trie = some node) :
    markAt mark (way ++ rest) (modifyAt (fun _ => changed) way trie) =
      markAt mark rest changed := by
  induction way generalizing trie with
  | nil => rfl
  | cons value way ih =>
    rw [nodeAt] at isNode
    cases found : trie.findChild value with
    | none =>
      rw [found] at isNode
      cases isNode
    | some child =>
      rw [found] at isNode
      rw [cons_append, markAt_cons, findChild_modifyAt, if_pos rfl, found]
      exact ih isNode

theorem markAt_modifyAt_other (elsewhere : ¬ way <+: parts) :
    markAt mark parts (modifyAt (fun _ => changed) way trie) = markAt mark parts trie := by
  induction way generalizing trie parts with
  | nil => exact absurd nil_prefix elsewhere
  | cons value way ih =>
    cases parts with
    | nil => rw [markAt_nil, markAt_nil, metadataValue_modifyAt]
    | cons other parts =>
      rw [markAt_cons, markAt_cons, findChild_modifyAt]
      by_cases isValue : other = value
      · subst isValue
        rw [if_pos rfl]
        cases trie.findChild other with
        | none => rfl
        | some child =>
          refine ih fun onWay => elsewhere ?_
          exact (prefix_cons_inj other).mpr onWay
      · rw [if_neg isValue]

end

/-- A node without a mark has the value of its parent. -/
def Inherits (mark : β → Option γ) (inherited : β → γ) (trie : Trie α β) : Prop :=
  ∀ way parent value child, nodeAt way trie = some parent → parent.findChild value = some child →
    mark child.metadataValue = none →
    inherited child.metadataValue = inherited parent.metadataValue

/-- What the longest marked part of a way says, or a value for none. -/
def LongestPrefix (marks : List α → Option γ) (nothing : γ) (parts : List α) (value : γ) : Prop :=
  (∃ marked, marked <+: parts ∧ marks marked = some value ∧
    ∀ longer, longer <+: parts → (marks longer).isSome → longer.length ≤ marked.length) ∨
  (∀ marked, marked <+: parts → marks marked = none) ∧ value = nothing

section

variable {trie node : Trie α β}

theorem Inherits.child {child : Trie α β} (inherits : trie.Inherits mark inherited)
    (found : trie.findChild value = some child) : child.Inherits mark inherited := by
  intro way parent other grandchild isParent
  apply inherits (value :: way)
  rw [nodeAt, found]
  exact isParent

theorem Inherits.nodeAt (inherits : trie.Inherits mark inherited)
    (isNode : nodeAt way trie = some node) : node.Inherits mark inherited := by
  intro rest parent other child isParent
  apply inherits (way ++ rest)
  rw [nodeAt_append, isNode]
  exact isParent

theorem inherits_of_children
    (first : ∀ value child, trie.findChild value = some child → mark child.metadataValue = none →
      inherited child.metadataValue = inherited trie.metadataValue)
    (below : ∀ value child, trie.findChild value = some child →
      child.Inherits mark inherited) : trie.Inherits mark inherited := by
  intro way parent value child isParent found
  cases way with
  | nil =>
    cases isParent
    exact first value child found
  | cons other way =>
    rw [Trie.nodeAt] at isParent
    cases isChild : trie.findChild other with
    | none =>
      rw [isChild] at isParent
      cases isParent
    | some inner =>
      rw [isChild] at isParent
      exact below other inner isChild way parent value child isParent found

theorem Inherits.modifyAt (inherits : trie.Inherits mark inherited)
    (isNode : Trie.nodeAt way trie = some node) (changedInherits : changed.Inherits mark inherited)
    (kept : (mark changed.metadataValue).isSome = true ∨
      changed.metadataValue = node.metadataValue) :
    (modifyAt (fun _ => changed) way trie).Inherits mark inherited := by
  induction way generalizing trie with
  | nil => exact changedInherits
  | cons value way ih =>
    rw [Trie.nodeAt] at isNode
    cases found : trie.findChild value with
    | none =>
      rw [found] at isNode
      cases isNode
    | some child =>
      rw [found] at isNode
      have inner := ih (inherits.child found) isNode
      apply inherits_of_children
      · intro other grown isGrown notMarked
        rw [metadataValue_modifyAt]
        rw [findChild_modifyAt] at isGrown
        by_cases isValue : other = value
        · subst isValue
          rw [if_pos rfl, found] at isGrown
          obtain rfl := Option.some.inj isGrown
          cases way with
          | nil =>
            cases isNode
            rcases kept with isMarked | same
            · change mark changed.metadataValue = none at notMarked
              rw [notMarked] at isMarked
              cases isMarked
            · change mark changed.metadataValue = none at notMarked
              change inherited changed.metadataValue = _
              rw [same] at notMarked ⊢
              exact inherits [] trie other node rfl found notMarked
          | cons next way =>
            rw [metadataValue_modifyAt] at notMarked ⊢
            exact inherits [] trie other child rfl found notMarked
        · rw [if_neg isValue] at isGrown
          exact inherits [] trie other grown rfl isGrown notMarked
      · intro other grown isGrown
        rw [findChild_modifyAt] at isGrown
        by_cases isValue : other = value
        · subst isValue
          rw [if_pos rfl, found] at isGrown
          obtain rfl := Option.some.inj isGrown
          exact inner
        · rw [if_neg isValue] at isGrown
          exact inherits.child isGrown

/-- A node on the way has what the longest marked part of the way says. -/
theorem Inherits.longestPrefix (inherits : trie.Inherits mark inherited)
    (marked : ∀ metadata value, mark metadata = some value → inherited metadata = value)
    (root : mark trie.metadataValue = none → inherited trie.metadataValue = nothing)
    (isNode : Trie.nodeAt way trie = some node) :
    LongestPrefix (fun parts => markAt mark parts trie) nothing way
      (inherited node.metadataValue) := by
  induction way using reverseRecOn generalizing node with
  | nil =>
    cases isNode
    cases isMark : mark trie.metadataValue with
    | none =>
      refine .inr ⟨?_, root isMark⟩
      intro part isPrefix
      rw [prefix_nil.mp isPrefix]
      exact isMark
    | some value =>
      refine .inl ⟨[], prefix_rfl, ?_, ?_⟩
      · rw [marked _ _ isMark]
        exact isMark
      · intro longer isPrefix _
        rw [prefix_nil.mp isPrefix]
  | append_singleton way value ih =>
    rw [nodeAt_append] at isNode
    obtain ⟨parent, isParent, isNode⟩ := Option.bind_eq_some_iff.mp isNode
    have found : parent.findChild value = some node := by
      obtain ⟨child, isChild, isNode⟩ := Option.bind_eq_some_iff.mp isNode
      cases isNode
      exact isChild
    have ownMark : markAt mark (way ++ [value]) trie = mark node.metadataValue := by
      rw [markAt, nodeAt_append, isParent]
      change ((parent.findChild value).bind _).bind _ = _
      rw [found]
      rfl
    cases isMark : mark node.metadataValue with
    | some own =>
      refine .inl ⟨way ++ [value], prefix_rfl, ?_, ?_⟩
      · change markAt mark (way ++ [value]) trie = _
        rw [ownMark, isMark, marked _ _ isMark]
      · intro longer isPrefix _
        exact isPrefix.length_le
    | none =>
      rw [inherits way parent value node isParent found isMark]
      rw [isMark] at ownMark
      rcases ih isParent with
        ⟨longest, isPrefix, isLongest, others⟩ | ⟨noMark, isNothing⟩
      · refine .inl ⟨longest, isPrefix.trans (prefix_append _ _), isLongest, ?_⟩
        intro longer isLonger hasMark
        rcases prefix_concat_iff.mp isLonger with rfl | onWay
        · change (markAt mark (way ++ [value]) trie).isSome = true at hasMark
          rw [ownMark] at hasMark
          cases hasMark
        · exact others longer onWay hasMark
      · refine .inr ⟨?_, isNothing⟩
        intro part isPart
        rcases prefix_concat_iff.mp isPart with rfl | onWay
        · exact ownMark
        · exact noMark part onWay

theorem LongestPrefix.append (longest : LongestPrefix marks nothing way own)
    (beyond : ∀ part, part <+: way ++ rest → ¬ part <+: way → marks part = none) :
    LongestPrefix marks nothing (way ++ rest) own := by
  rcases longest with ⟨longest, isPrefix, isLongest, others⟩ | ⟨noMark, isNothing⟩
  · refine .inl ⟨longest, isPrefix.trans (prefix_append _ _), isLongest, ?_⟩
    intro longer isLonger hasMark
    by_cases onWay : longer <+: way
    · exact others longer onWay hasMark
    · rw [beyond longer isLonger onWay] at hasMark
      cases hasMark
  · refine .inr ⟨?_, isNothing⟩
    intro part isPart
    by_cases onWay : part <+: way
    · exact noMark part onWay
    · exact beyond part isPart onWay

omit [DecidableEq α] in
theorem longestPrefix_self (isMarked : marks parts = some own) :
    LongestPrefix marks nothing parts own :=
  .inl ⟨parts, prefix_rfl, isMarked, fun _ isPrefix _ =>
    isPrefix.length_le⟩

omit [DecidableEq α] in
theorem LongestPrefix.unique (first : LongestPrefix marks nothing parts own)
    (second : LongestPrefix marks nothing parts other) : own = other := by
  rcases first with ⟨marked, isPrefix, isMarked, longest⟩ | ⟨noMark, rfl⟩
  · rcases second with ⟨also, alsoPrefix, alsoMarked, alsoLongest⟩ | ⟨noMark, _⟩
    · have lengths : marked.length = also.length :=
        Nat.le_antisymm (alsoLongest marked isPrefix (by rw [isMarked]; rfl))
          (longest also alsoPrefix (by rw [alsoMarked]; rfl))
      have same : marked = also :=
        (prefix_of_prefix_length_le isPrefix alsoPrefix lengths.le).eq_of_length lengths
      rw [same, alsoMarked] at isMarked
      exact (Option.some.inj isMarked).symm
    · rw [noMark marked isPrefix] at isMarked
      cases isMarked
  · rcases second with ⟨also, alsoPrefix, alsoMarked, _⟩ | ⟨_, same⟩
    · rw [noMark also alsoPrefix] at alsoMarked
      cases alsoMarked
    · exact same.symm

/-- The node where a traversal ends has what the longest marked part of the
values says. -/
theorem Inherits.traverse (inherits : trie.Inherits mark inherited)
    (marked : ∀ metadata value, mark metadata = some value → inherited metadata = value)
    (root : mark trie.metadataValue = none → inherited trie.metadataValue = nothing) :
    LongestPrefix (fun parts => markAt mark parts trie) nothing parts (inherited
        (traverseUntilLastAccessibleNode parts trie).2.1.metadataValue) := by
  cases traversed : traverseUntilLastAccessibleNode parts trie with
  | mk way others =>
    obtain ⟨last, left⟩ := others
    obtain ⟨rfl, isNode, ends⟩ := traverse_spec traversed
    apply (inherits.longestPrefix marked root isNode).append
    intro part isPart notOnWay
    rcases ends with rfl | ⟨value, rest, rfl, notFound⟩
    · rw [append_nil] at isPart
      exact absurd isPart notOnWay
    -- The part goes on from the last node with a value it has no child for.
    obtain ⟨more, isMore⟩ := isPart
    rcases append_eq_append_iff.mp isMore with
      ⟨between, isWay, _⟩ | ⟨between, rfl, isRest⟩
    · exact absurd ⟨between, isWay.symm⟩ notOnWay
    rw [markAt_append isNode]
    cases between with
    | nil => exact absurd (by simp) notOnWay
    | cons first between =>
      rw [cons_append, cons.injEq] at isRest
      rw [markAt_cons, ← isRest.1, notFound]
      rfl

end

section

variable {mark : β → Option γ} {inherited : β → γ} {metadata : β} {provide : β → α → β}
  {trie : Trie α β}

theorem markAt_leaf (parts : List α) : markAt mark parts (node own []) =
      if parts = [] then mark own else none := by
  cases parts with
  | nil | cons first parts => rfl

theorem inherits_leaf : (node own [] : Trie α β).Inherits mark inherited := by
  apply inherits_of_children
  · intro value child found
    cases found
  · intro value child found
    cases found

theorem findChild_append (child : Trie α β) (other : α) (notFound : trie.findChild value = none) :
    (node trie.metadataValue (trie.children ++ [(value, child)])).findChild other =
      if other = value then some child else trie.findChild other := by
  change (trie.children ++ [(value, child)]).lookup other = _
  rw [lookup_append]
  by_cases isValue : other = value
  · subst isValue
    change (trie.findChild other).or _ = _
    rw [notFound]
    simp
  · rw [if_neg isValue, lookup_cons, beq_eq_false_iff_ne.mpr isValue]
    simp [findChild]

theorem markAt_append_child (notFound : trie.findChild value = none) :
    markAt mark parts (node trie.metadataValue (trie.children ++ [(value, child)])) =
      match parts with
      | [] => mark trie.metadataValue
      | other :: rest =>
        if other = value then markAt mark rest child
        else markAt mark (other :: rest) trie := by
  cases parts with
  | nil => rfl
  | cons other rest =>
    rw [markAt_cons, findChild_append child other notFound]
    by_cases isValue : other = value
    · simp [isValue]
    · simp only [if_neg isValue]
      rw [markAt_cons]

variable (plain : ∀ own value, mark (provide own value) = none ∧
    inherited (provide own value) = inherited own)
  (marked : (mark metadata).isSome = true)

include plain marked

/-- New nodes below one that has no child for the first value, or no child at all. -/
theorem insertBelow_spec {steps : List (α × Bool)}
    (free : ∀ step ∈ steps.head?, trie.findChild step.1 = none)
    (leaf : steps = [] → trie.children = []) (inherits : trie.Inherits mark inherited)
    (inserted : insertBelow metadata provide steps trie = (result, later)) :
    later.Inherits mark inherited ∧ (later.metadataValue = trie.metadataValue ∨
        steps = [] ∧ (mark later.metadataValue).isSome = true) ∧
      ∀ parts, markAt mark parts later =
        if result = .ok () ∧ parts = steps.map Prod.fst then mark metadata
        else markAt mark parts trie := by
  induction steps generalizing trie result later with
  | nil =>
    obtain ⟨own, children⟩ := trie
    obtain rfl : children = [] := leaf rfl
    cases inserted
    refine ⟨inherits_leaf, .inr ⟨rfl, marked⟩, ?_⟩
    intro parts
    simp only [setMetadata, markAt_leaf, map_nil, true_and]
    split_ifs <;> rfl
  | cons step rest ih =>
    obtain ⟨value, memory⟩ := step
    have notFound := free _ rfl
    rw [insertBelow, ensureChild, notFound] at inserted
    cases memory with
    | false =>
      cases inserted
      refine ⟨inherits, .inl rfl, ?_⟩
      intro parts
      simp
    | true =>
      cases below : insertBelow metadata provide rest
          (node (provide trie.metadataValue value) []) with
      | mk innerResult child =>
        obtain ⟨childInherits, kept, marks⟩ :=
          ih (fun _ _ => rfl) (fun _ => rfl) inherits_leaf below
        simp only [markAt_leaf, (plain _ value).1, ite_self] at marks
        have grown : (innerResult, node trie.metadataValue
            (trie.children ++ [(value, child)])) = (result, later) := by
          rw [← inserted]
          simp [below]
        cases grown
        refine ⟨?_, .inl rfl, ?_⟩
        · apply inherits_of_children
          · intro other grown isGrown notMarked
            rw [findChild_append child other notFound] at isGrown
            split_ifs at isGrown with isValue
            · cases isGrown
              rcases kept with same | ⟨_, isMarked⟩
              · rw [same]
                exact (plain _ value).2
              · rw [notMarked] at isMarked
                cases isMarked
            · exact inherits [] trie other grown rfl isGrown notMarked
          · intro other grown isGrown
            rw [findChild_append child other notFound] at isGrown
            split_ifs at isGrown with isValue
            · cases isGrown
              exact childInherits
            · exact inherits.child isGrown
        · intro parts
          rw [markAt_append_child notFound]
          cases parts with
          | nil => simp [markAt_nil]
          | cons other parts =>
            by_cases isValue : other = value
            · subst isValue
              rw [markAt_cons, notFound]
              simp [marks]
            · simp [isValue]

omit plain marked in
theorem insertBelow_ok (memory : ∀ step ∈ steps, step.2 = true) :
    (insertBelow metadata provide steps trie).1 = .ok () := by
  induction steps generalizing trie with
  | nil => rfl
  | cons step rest ih =>
    obtain ⟨value, granted⟩ := step
    obtain rfl : granted = true := memory _ mem_cons_self
    have inner : ∀ child : Trie α β, (insertBelow metadata provide rest child).1 = .ok () := by
      intro child
      apply ih
      exact (forall_mem_cons.mp memory).2
    rw [insertBelow, ensureChild]
    cases trie.findChild value with
    | none | some child => exact inner _

end

end MixUpOS.AK.Trie
