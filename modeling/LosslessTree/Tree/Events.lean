import LosslessTree.Tree.Basic

/-!
# Trees as streams of events

Reading a tree from left to right gives a stream of events: a node is started, its tokens and nodes
follow, and it is closed again. A builder goes the other way and makes a tree out of such a stream.

## Main definitions

* `Event`: the start of a node, a token, or the end of the innermost open node.
* `Tree.events`: the stream of a tree.
-/

namespace LosslessTree

/-- One event of the stream of a tree. -/
inductive Event where
  | start (kind : NodeKind)
  | push (token : Token)
  | close
  deriving DecidableEq, Repr

mutual

/-- The stream of a tree. -/
def Tree.events : Tree → List Event
  | ⟨_, kind, _, children⟩ => .start kind :: childrenEvents children ++ [.close]

/-- The streams of a list of children, one after the other. -/
def childrenEvents : List Child → List Event
  | [] => []
  | .token _ _ token :: rest => .push token :: childrenEvents rest
  | .node _ tree :: rest => tree.events ++ childrenEvents rest

end

end LosslessTree
