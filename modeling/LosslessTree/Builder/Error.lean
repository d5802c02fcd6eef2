import LosslessTree.Length
import LosslessTree.NodeKind

/-!
# Why a builder refuses an event

## Main definitions

* `BuildError`, with its wording `BuildError.message`.
-/

namespace LosslessTree

/-- The reason for which a builder refuses an event, or refuses to finish. -/
inductive BuildError where
  /-- A length does not fit a word. -/
  | overflow (overflow : Overflow)
  /-- A token or node came after the root was closed. -/
  | pushedAfterRoot
  /-- A token or node came while no node was open. -/
  | pushedOutside
  /-- A node was started after the root was closed. -/
  | startedAfterRoot (kind : NodeKind)
  /-- The root was closed a second time. -/
  | closedAfterRoot
  /-- A node was closed while none was open. -/
  | closedOutside
  /-- The builder was finished before any node was started. -/
  | finishedEmpty
  /-- The builder was finished while `count` nodes were open around the innermost one. -/
  | finishedOpen (count : Nat) (innermost : NodeKind)
  deriving DecidableEq, Repr

/-- The wording of a refusal. -/
def BuildError.message : BuildError → String
  | overflow o => o.message
  | pushedAfterRoot => "Token pushed after the root was closed"
  | pushedOutside => "Token or node pushed outside of any node"
  | startedAfterRoot kind => "Node " ++ kind.name ++ " started after the root was closed"
  | closedAfterRoot => "Unbalanced start_node / end_node: the root is already closed"
  | closedOutside => "Unbalanced start_node / end_node: no node is open"
  | finishedEmpty => "Unbalanced start_node / end_node"
  | finishedOpen count innermost =>
    count.repr ++ " node(s) still open when finishing " ++ innermost.name

end LosslessTree
