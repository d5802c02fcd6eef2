import LosslessTree.NodeKind
import LosslessTree.Token.Basic

/-!
# Trees

A tree is a node with everything below it: child trees and tokens, in textual order. A node stores
the length of its text and each child stores its offset from the start of its parent, so that a
subtree can be shared by several trees without change.

Trees are compared by identity, not by content: every tree and every token in a tree carries an
identity, made up of the operation that made it and the place where that operation put it. An
operation that keeps a subtree keeps its identity. The operations of one run are told apart by
numbers, which the caller hands out: no two of them may have the same.

## Main definitions

* `Ident`: the identity of a tree or of a token in it.
* `Tree`, `Child`: trees, and the children of a node with their offsets.
* `Tree.text`: the source text of a tree.
* `Tree.nodeCount`: the number of nodes of a tree.
-/

namespace LosslessTree

/-- The identity of a tree or token: the number of the operation that made it, and the place in the
tree which that operation returned, as the child indices on the way down from the top. -/
structure Ident where
  origin : Nat
  place : List Nat
  deriving DecidableEq, Repr

/-- The identity that the same operation gives to the child at `index`. -/
def Ident.child (id : Ident) (index : Nat) : Ident :=
  { id with place := id.place ++ [index] }

mutual

/-- A node with everything below it. The length counts the bytes of all children. -/
structure Tree where
  id : Ident
  kind : NodeKind
  byteLen : Nat
  children : List Child

/-- A child of a node, with its offset in bytes from the start of the node. -/
inductive Child where
  | token (offset : Nat) (id : Ident) (token : Token)
  | node (offset : Nat) (tree : Tree)

end

mutual

/-- The source text of a tree: the full texts of its tokens, from left to right. -/
def Tree.text : Tree → String
  | ⟨_, _, _, children⟩ => childrenText children

/-- The source text of a list of children. -/
def childrenText : List Child → String
  | [] => ""
  | .token _ _ token :: rest => token.fullText ++ childrenText rest
  | .node _ tree :: rest => tree.text ++ childrenText rest

end

mutual

/-- The number of nodes of a tree, its top included. -/
def Tree.nodeCount : Tree → Nat
  | ⟨_, _, _, children⟩ => childrenNodeCount children + 1

/-- The number of nodes of a list of children. -/
def childrenNodeCount : List Child → Nat
  | [] => 0
  | .token _ _ _ :: rest => childrenNodeCount rest
  | .node _ tree :: rest => tree.nodeCount + childrenNodeCount rest

end

/-! ### Counting nodes -/

theorem Tree.nodeCount_eq (tree : Tree) :
    tree.nodeCount = childrenNodeCount tree.children + 1 := by
  cases tree
  rfl

theorem childrenNodeCount_drop_succ_le (children : List Child) (index : Nat) :
    childrenNodeCount (children.drop (index + 1)) ≤ childrenNodeCount (children.drop index) := by
  induction children generalizing index with
  | nil => simp
  | cons child rest ih =>
    cases index with
    | zero => cases child <;> simp [childrenNodeCount]
    | succ index => simpa using ih index

/-- Fewer nodes are left further to the right. -/
theorem childrenNodeCount_drop_le (children : List Child) {i j : Nat} (h : i ≤ j) :
    childrenNodeCount (children.drop j) ≤ childrenNodeCount (children.drop i) := by
  induction h with
  | refl => exact Nat.le_refl _
  | step _ ih => exact Nat.le_trans (childrenNodeCount_drop_succ_le children _) ih

/-- From a node on, its own nodes and those to the right of it are left. -/
theorem childrenNodeCount_drop_of_node {children : List Child} {index offset : Nat} {tree : Tree}
    (h : children[index]? = some (.node offset tree)) :
    childrenNodeCount (children.drop index) =
      tree.nodeCount + childrenNodeCount (children.drop (index + 1)) := by
  obtain ⟨hlt, hget⟩ := List.getElem?_eq_some_iff.1 h
  rw [List.drop_eq_getElem_cons hlt, hget, childrenNodeCount]

namespace Child

/-- The offset of a child from the start of its parent. -/
def offset : Child → Nat
  | token offset _ _ => offset
  | node offset _ => offset

/-- The length of a child: a node knows its length, that of a token is computed. -/
def byteLen : Child → Except Overflow Nat
  | token _ _ t => t.byteLen
  | node _ tree => .ok tree.byteLen

/-- The same child at another offset. -/
def moveTo (offset : Nat) : Child → Child
  | token _ id t => token offset id t
  | node _ tree => node offset tree

end Child

end LosslessTree
