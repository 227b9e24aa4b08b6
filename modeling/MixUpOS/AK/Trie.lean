import MixUpOS.AK.Error
import Mathlib.Data.List.Basic

/-!
# Tries

A node has metadata, and children by their values.  The hash map of the
children is a list of them, in which a value is looked up from the front.

A node is reached from the root by the values on the way to it, so these stand
for the reference to a node that the source hands around.
-/

namespace MixUpOS.AK

inductive Trie (α β : Type) where
  | node (metadata : β) (children : List (α × Trie α β))

namespace Trie

variable {α β : Type} [DecidableEq α]

def metadataValue : Trie α β → β
  | node metadata _ => metadata

def children : Trie α β → List (α × Trie α β)
  | node _ children => children

def setMetadata (metadata : β) : Trie α β → Trie α β
  | node _ children => node metadata children

/-- `m_children.find(value)`. -/
def findChild (trie : Trie α β) (value : α) : Option (Trie α β) := trie.children.lookup value

/-- A changed child. -/
def modifyChild (value : α) (change : Trie α β → Trie α β) :
    List (α × Trie α β) → List (α × Trie α β)
  | [] => []
  | (other, child) :: rest =>
    if value == other then (other, change child) :: rest
    else (other, child) :: modifyChild value change rest

/-- A change of the node that some values lead to. -/
def modifyAt (change : Trie α β → Trie α β) : List α → Trie α β → Trie α β
  | [], trie => change trie
  | value :: rest, node metadata children =>
    node metadata (modifyChild value (modifyAt change rest) children)

/-- The last node on the way that exists, the values that lead to it, and those
that are left. -/
def traverseUntilLastAccessibleNode : List α → Trie α β → List α × Trie α β × List α
  | [], trie => ([], trie, [])
  | value :: rest, trie =>
    match trie.findChild value with
    | none => ([], trie, value :: rest)
    | some child =>
      let (way, last, left) := traverseUntilLastAccessibleNode rest child
      (value :: way, last, left)

/-- `ensure_child`: the child, and the node around it.  `memory` tells whether a
new node and its entry get their memory. -/
def ensureChild (trie : Trie α β) (value : α) (metadata : β)
    (memory : Bool) : ErrorOr (Trie α β × (Trie α β → Trie α β)) :=
  match trie.findChild value with
  | none =>
    if memory then
      .ok (node metadata [], fun child =>
        node trie.metadataValue (trie.children ++ [(value, child)]))
    else .error .ENOMEM
  | some child =>
    .ok (child.setMetadata metadata, fun child =>
      node trie.metadataValue (modifyChild value (fun _ => child) trie.children))

/-- The loop of `insert` below a node: the values get nodes with the metadata
that `provide` makes from the parent's, and the last one the metadata of the
insertion. An error leaves the nodes that were made before it. -/
def insertBelow (metadata : β) (provide : β → α → β) :
    List (α × Bool) → Trie α β → ErrorOr Unit × Trie α β
  | [], trie => (.ok (), trie.setMetadata metadata)
  | (value, memory) :: rest, trie =>
    match trie.ensureChild value (provide trie.metadataValue value) memory with
    | .error error => (.error error, trie)
    | .ok (child, around) =>
      let (result, child) := insertBelow metadata provide rest child
      (result, around child)

end Trie

end MixUpOS.AK
