import LosslessTree.Node.Identity

/-!
# Typed views of nodes

A view is a node in place whose kind is known. It holds nothing else: what it says about the node is
looked up in the tree each time.

## Main definitions

* `View kind`: a node of the given kind.
* `View.ofNode?`, `View.ofNode`: the view of a node, or none; or the mismatch of kinds.
* `KindMismatch`, with its wording `KindMismatch.message`.
-/

namespace LosslessTree

/-- A node in place of a known kind. -/
structure View (kind : NodeKind) where
  raw : Node
  kind_eq : raw.kind = kind

/-- A node was of another kind than expected. -/
structure KindMismatch where
  expected : NodeKind
  found : NodeKind
  deriving DecidableEq, Repr

/-- The wording of a mismatch. -/
def KindMismatch.message (mismatch : KindMismatch) : String :=
  "Expected " ++ mismatch.expected.name ++ " node, found " ++ mismatch.found.name

namespace View

variable {kind : NodeKind}

instance : BEq (View kind) := ⟨fun a b => a.raw == b.raw⟩

/-- The view of a node of the right kind. -/
def ofNode? (kind : NodeKind) (node : Node) : Option (View kind) :=
  if h : node.kind = kind then some ⟨node, h⟩ else none

/-- The view of a node, or the mismatch of the kinds. -/
def ofNode (kind : NodeKind) (node : Node) : Except KindMismatch (View kind) :=
  if h : node.kind = kind then .ok ⟨node, h⟩ else .error ⟨kind, node.kind⟩

/-- The source text of the node. -/
def text (view : View kind) : String :=
  view.raw.text

end View

end LosslessTree
