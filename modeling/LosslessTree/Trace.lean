import LosslessTree.NodeKind

/-!
# Trace lines

Building, transforming and visiting a tree leave a trace: one line for each node that is opened or
closed, each node that is replaced, and each element that is visited by a visitor without a typed
part.

## Main definitions

* `TraceLine`, with its wording `TraceLine.message`.
-/

namespace LosslessTree

/-- What a trace line reports; positions and offsets are in bytes. -/
inductive TraceLine where
  /-- A node was opened. -/
  | opened (kind : NodeKind) (position : Nat)
  /-- A node other than the root was closed. -/
  | closed (kind : NodeKind) (position : Nat)
  /-- The root was closed. -/
  | closedRoot (kind : NodeKind) (position : Nat)
  /-- The node of kind `kind` at `offset` was replaced by one of kind `replacement`. -/
  | replaced (kind : NodeKind) (offset : Nat) (replacement : NodeKind)
  /-- A node with a typed view was handed to a visitor that does not tell kinds apart. -/
  | visitedUntyped (kind : NodeKind) (offset : Nat)
  deriving DecidableEq, Repr

/-- The wording of a trace line. -/
def TraceLine.message : TraceLine → String
  | opened kind position => "start " ++ kind.name ++ " at " ++ position.repr
  | closed kind position => "end " ++ kind.name ++ " at " ++ position.repr
  | closedRoot kind position => "end root " ++ kind.name ++ " at " ++ position.repr
  | replaced kind offset replacement =>
    "replacing " ++ kind.name ++ "@" ++ offset.repr ++ " with " ++ replacement.name
  | visitedUntyped kind offset =>
    "generic traversal of " ++ kind.name ++ "@" ++ offset.repr

end LosslessTree
