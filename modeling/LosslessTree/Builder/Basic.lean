import LosslessTree.Builder.Error
import LosslessTree.Node.Basic
import LosslessTree.Trace
import LosslessTree.Tree.Draft
import LosslessTree.Tree.Events

/-!
# Building trees

A builder makes a tree out of a stream of events. It keeps the open nodes, innermost first, as
drafts; the first node that is started becomes the root. Closing the root is optional, since
finishing closes it as well, but nothing may follow once it is closed.

An event that does not fit is refused. A refused event leaves the open nodes alone and the builder
can be used further; only the position, which counts the bytes of all tokens offered, has moved if a
token was refused because there was no place for it.

## Main definitions

* `Builder`, `Builder.new`: the state of a builder, and the first one.
* `Builder.Reply`: a builder after an event, with the trace lines written and the refusal, if any.
* `Builder.step`, `Builder.run`: one event, and events up to the first one refused.
* `Builder.finish`: the root of the finished tree.
-/

namespace LosslessTree

/-- A node that is not yet closed, with the identity it will have. -/
structure OpenNode where
  id : Ident
  draft : Draft

namespace OpenNode

/-- The identity of the next child of an open node. -/
def nextId (node : OpenNode) : Ident :=
  node.id.child node.draft.children.length

/-- Appends a child to an open node. -/
def push (node : OpenNode) (child : Child) : Except Overflow OpenNode := do
  return { node with draft := ← node.draft.push child }

/-- The tree of an open node, as far as it goes. -/
def tree (node : OpenNode) : Tree :=
  node.draft.toTree node.id

end OpenNode

/-- The state of a builder. The root stays among the open nodes when it is closed. -/
structure Builder where
  /-- The number of this builder among the operations that make trees. -/
  origin : Nat
  /-- The open nodes, innermost first. -/
  stack : List OpenNode
  /-- The number of bytes offered so far. -/
  position : Nat
  rootClosed : Bool

namespace Builder

/-- A builder with nothing built yet. -/
def new (origin : Nat) : Builder :=
  { origin, stack := [], position := 0, rootClosed := false }

/-- A builder as an event leaves it. -/
structure Reply where
  builder : Builder
  trace : List TraceLine
  error? : Option BuildError

namespace Reply

/-- The event was taken, with these trace lines. -/
def taken (builder : Builder) (trace : List TraceLine) : Reply :=
  ⟨builder, trace, none⟩

/-- The event was refused, after these trace lines. -/
def refused (builder : Builder) (trace : List TraceLine) (error : BuildError) : Reply :=
  ⟨builder, trace, some error⟩

end Reply

/-- Appends a child to the innermost open node, after the trace lines `trace`. -/
def append (builder : Builder) (child : OpenNode → Child) (trace : List TraceLine) : Reply :=
  if builder.rootClosed then .refused builder trace .pushedAfterRoot
  else
    match builder.stack with
    | [] => .refused builder trace .pushedOutside
    | innermost :: outer =>
      match innermost.push (child innermost) with
      | .ok grown => .taken { builder with stack := grown :: outer } trace
      | .error o => .refused builder trace (.overflow o)

/-- Offers a token: the position moves past it, and it is appended to the innermost open node. -/
def push (builder : Builder) (token : Token) : Reply :=
  match token.byteLen >>= checkedAdd builder.position with
  | .error o => .refused builder [] (.overflow o)
  | .ok position =>
    append { builder with position } (fun node => .token 0 node.nextId token) []

/-- The identity of a node that is started now. -/
def nextId (builder : Builder) : Ident :=
  match builder.stack with
  | [] => ⟨builder.origin, []⟩
  | innermost :: _ => innermost.nextId

/-- Starts a node inside the innermost open one. -/
def start (builder : Builder) (kind : NodeKind) : Reply :=
  if builder.rootClosed then .refused builder [] (.startedAfterRoot kind)
  else
    .taken { builder with stack := ⟨builder.nextId, .empty kind⟩ :: builder.stack }
      [.opened kind builder.position]

/-- Closes the innermost open node: the root is marked as closed, any other node is appended to the
one around it. -/
def close (builder : Builder) : Reply :=
  if builder.rootClosed then .refused builder [] .closedAfterRoot
  else
    match builder.stack with
    | [] => .refused builder [] .closedOutside
    | [root] =>
      .taken { builder with rootClosed := true } [.closedRoot root.draft.kind builder.position]
    | innermost :: outer =>
      append { builder with stack := outer } (fun _ => .node 0 innermost.tree)
        [.closed innermost.draft.kind builder.position]

/-- Offers one event. -/
def step (builder : Builder) : Event → Reply
  | .start kind => builder.start kind
  | .push token => builder.push token
  | .close => builder.close

/-- Offers events one after the other, up to the first one that is refused. -/
def run (builder : Builder) : List Event → Reply
  | [] => .taken builder []
  | event :: rest =>
    let reply := builder.step event
    match reply.error? with
    | some _ => reply
    | none =>
      let last := reply.builder.run rest
      { last with trace := reply.trace ++ last.trace }

/-- The root of the tree that was built; exactly one node, the root, must be left. -/
def finish (builder : Builder) : Except BuildError Node :=
  match builder.stack with
  | [] => .error .finishedEmpty
  | [root] => .ok (.top root.tree)
  | innermost :: outer => .error (.finishedOpen outer.length innermost.draft.kind)

end Builder

end LosslessTree
