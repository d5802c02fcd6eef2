import Mathlib.Logic.Function.Iterate
import LosslessTree.Proofs.Identity

/-!
# Moving about in a tree

A node in place is made anew by each step of navigation, from the node where the step begins. After
any number of steps, down, sideways, up, to the root or by way of a token, the node that was come to
does not show how it was come to: it is the node found by going down from the root along its path.

Two ways of counting meet here. Children are counted without tokens, and siblings are looked for at
indices that count both; they agree, so going from the first child on to the next sibling each time
runs through the children.

## Main definitions

* `Move`, `Move.target?`, `Node.follow?`: one step of navigation, and steps one after the other.

## Main results

* `Node.Within.target?`, `Node.Within.follow?`: steps stay in the tree.
* `Node.nextSibling?_of_nthChild?`, `Node.iterate_nextSibling?`: siblings are the children in order.
* `Node.moves_keep_place`: where navigation leads.
-/

namespace LosslessTree

/-- One step of navigation from a node to a node. -/
inductive Move where
  | nthChild (n : Nat)
  | firstChild
  | nextSibling
  | parent
  | root
  /-- To the parent of the token number `n`, from zero, directly below. -/
  | nthTokenParent (n : Nat)
  /-- To the parent of the first token of the subtree. -/
  | firstTokenParent
  /-- To the parent of the last token of the subtree. -/
  | lastTokenParent
  deriving DecidableEq, Repr

/-- The node to which a step leads. -/
def Move.target? : Move → Node → Option Node
  | nthChild n, node => node.nthChild? n
  | firstChild, node => node.firstChild?
  | nextSibling, node => node.nextSibling?
  | parent, node => node.parent?
  | root, node => some node.root
  | nthTokenParent n, node => node.tokens[n]?.map Leaf.parent
  | firstTokenParent, node => node.firstToken?.map Leaf.parent
  | lastTokenParent, node => node.lastToken?.map Leaf.parent

namespace Node

variable {tree : Tree} {node child found : Node}

/-- The node to which steps lead, one after the other. -/
def follow? (node : Node) : List Move → Option Node
  | [] => some node
  | move :: rest => (move.target? node).bind fun next => next.follow? rest

/-! ### Staying in the tree -/

/-- The parent of a token of the tree is a node of the tree. -/
theorem Reaches.within_parent {start : Node} {leaf : Leaf} (h : start.Reaches (.leaf leaf)) :
    start.Within leaf.parent := by
  obtain ⟨above, habove, hleaf⟩ := h
  rwa [(parent_eq_of_mem_parts hleaf).1]

/-- **A step stays in the tree.** -/
theorem Within.target? (h : (top tree).Within node) {move : Move}
    (hmove : move.target? node = some found) : (top tree).Within found := by
  have htoken {leaf? : Option Leaf} (hfound : leaf?.map Leaf.parent = some found)
      (hreaches : ∀ leaf, leaf? = some leaf → node.Reaches (.leaf leaf)) :
      (top tree).Within found := by
    obtain ⟨leaf, hleaf, rfl⟩ := Option.map_eq_some_iff.1 hfound
    exact (h.reaches (hreaches leaf hleaf)).within_parent
  cases move with
  | nthChild n => exact h.tail (List.mem_of_getElem? hmove)
  | firstChild => exact h.tail (List.mem_of_head? hmove)
  | nextSibling =>
    obtain ⟨parent, hparent, -, hsibling⟩ := h.of_nextSibling? hmove
    exact hparent.tail hsibling
  | parent => exact (h.of_parent? hmove).1
  | root =>
    cases hmove
    rw [h.root_eq]
    exact .refl _
  | nthTokenParent n =>
    refine htoken hmove fun leaf hleaf => ?_
    have hpart := getElem?_parts_of_mem_tokens (List.mem_of_getElem? hleaf)
    exact reaches_of_mem_parts (List.mem_of_getElem? hpart)
  | firstTokenParent => exact htoken hmove fun _ hleaf => reaches_of_firstToken? hleaf
  | lastTokenParent => exact htoken hmove fun _ hleaf => reaches_of_lastToken? hleaf

/-- **Steps stay in the tree**, however many there are. -/
theorem Within.follow? (h : (top tree).Within node) {moves : List Move}
    (hmoves : node.follow? moves = some found) : (top tree).Within found := by
  induction moves generalizing node with
  | nil =>
    cases hmoves
    exact h
  | cons move rest ih =>
    obtain ⟨next, hnext, hrest⟩ := Option.bind_eq_some_iff.1 hmoves
    exact ih (h.target? hnext) hrest

/-! ### Siblings and children -/

/-- **The sibling behind a child is the child behind it**, or there is neither. -/
theorem nextSibling?_of_nthChild? {n : Nat} (h : node.nthChild? n = some child) :
    child.nextSibling? = node.nthChild? (n + 1) := by
  obtain ⟨hlt, hget⟩ := List.getElem?_eq_some_iff.1 h
  have hsplit : node.children = node.children.take n ++ child :: node.children.drop (n + 1) := by
    rw [← hget, ← List.drop_eq_getElem_cons hlt, List.take_append_drop]
  rw [nextSibling?_of_children_eq hsplit, List.head?_drop, nthChild?]

/-- **Going on from sibling to sibling runs through the children**, and ends behind the last one. -/
theorem iterate_nextSibling? (node : Node) (n : Nat) :
    (fun sibling => sibling.bind nextSibling?)^[n] node.firstChild? = node.children[n]? := by
  induction n with
  | zero => exact List.head?_eq_getElem?
  | succ n ih =>
    rw [Function.iterate_succ_apply', ih]
    cases hchild : node.children[n]? with
    | none =>
      rw [List.getElem?_eq_none_iff] at hchild
      exact (List.getElem?_eq_none (Nat.le_succ_of_le hchild)).symm
    | some child => exact nextSibling?_of_nthChild? hchild

/-- **Where navigation leads.** Whatever steps are taken from the root of a tree, the node come to is
the one that is found by going down from the root along its path, with the same offset and the same
tree below it. And at every node of the tree the steps fit together: going down to a child and up
again leads back, the sibling behind a child is the child behind it, so that going on from sibling to
sibling runs through the children; the root is the root of the tree, and every token directly below
the node has the node as its parent. -/
theorem moves_keep_place (tree : Tree) :
    (∀ moves found, (top tree).follow? moves = some found →
      ∃ node, (top tree).at? found.path = some node ∧ (node == found) = true ∧
        node.offset = found.offset ∧ node.tree = found.tree) ∧
    ∀ node, (top tree).Within node →
      (∀ n child, node.nthChild? n = some child →
        (∃ parent, child.parent? = some parent ∧ (parent == node) = true) ∧
        child.nextSibling? = node.nthChild? (n + 1)) ∧
      (∀ n, (fun sibling => sibling.bind nextSibling?)^[n] node.firstChild? = node.children[n]?) ∧
      node.root = top tree ∧
      ∀ leaf ∈ node.tokens, (leaf.parent == node) = true := by
  refine ⟨fun moves found hmoves => ?_, fun node hnode => ⟨fun n child hchild => ?_,
    node.iterate_nextSibling?, hnode.root_eq, fun leaf hleaf => ?_⟩⟩
  · have hwithin := (Within.refl (top tree)).follow? hmoves
    exact ⟨found, at?_eq_some_iff.2 ⟨hwithin, rfl⟩, found.same_self, rfl, rfl⟩
  · have hmem : child ∈ node.children := List.mem_of_getElem? hchild
    exact ⟨⟨node, parent?_of_mem_children hmem, node.same_self⟩,
      nextSibling?_of_nthChild? hchild⟩
  · rw [(parent_eq_of_getElem?_parts (getElem?_parts_of_mem_tokens hleaf)).1]
    exact node.same_self

end Node

namespace Forest

/-- In `ü .ü `, where one tree stands at two places, the second variable is come to by way of the
first one and its token; it is found at its own path. -/
theorem moves_in_sharing :
    ((empty.add 0 dottedTree).add 1 sharingTree).Reachable ∧
    (Node.top sharingTree).follow? [.firstTokenParent, .nextSibling, .lastTokenParent] =
      some (variableAt sharingTree 2 4) ∧
    (∃ node, (Node.top sharingTree).at? [2] = some node ∧
      (node == variableAt sharingTree 2 4) = true ∧ node.offset = 4 ∧ node.tree = variableTree) ∧
    (variableAt sharingTree 0 0).nextSibling? = (Node.top sharingTree).nthChild? 1 := by
  have hmoves : (Node.top sharingTree).follow? [.firstTokenParent, .nextSibling, .lastTokenParent] =
      some (variableAt sharingTree 2 4) := rfl
  obtain ⟨hplace, hsteps⟩ := Node.moves_keep_place sharingTree
  exact ⟨reachable_sharing, hmoves, hplace _ _ hmoves, ((hsteps _ (.refl _)).1 0 _ rfl).2⟩

end Forest

end LosslessTree
