import LosslessTree.Node.Basic

/-!
# Identity of nodes and tokens

Two nodes in place are the same if they stand at the same position and the trees at that position,
and at every position above it, are the same tree. Trees built apart are never the same, whatever
their text, and two positions are never the same, even if they share a subtree.

## Main definitions

* `Node.same`, `Leaf.same`, `Part.same`: the test, and with it the `==` of nodes, tokens and parts.
-/

namespace LosslessTree

/-- Whether two nodes are one node: equal offset, index and identity, here and all the way up. -/
def Node.same : Node → Node → Bool
  | .top t, .top u => t.id == u.id
  | .inner p i o t, .inner q j k u => o == k && i == j && t.id == u.id && p.same q
  | _, _ => false

instance : BEq Node := ⟨Node.same⟩

/-- Whether two tokens in place are one token: equal index and identity below one node. -/
def Leaf.same (a b : Leaf) : Bool :=
  a.index == b.index && a.id == b.id && a.parent == b.parent

instance : BEq Leaf := ⟨Leaf.same⟩

/-- Whether two parts are one part. -/
def Part.same : Part → Part → Bool
  | .node a, .node b => a == b
  | .leaf a, .leaf b => a == b
  | _, _ => false

instance : BEq Part := ⟨Part.same⟩

end LosslessTree
