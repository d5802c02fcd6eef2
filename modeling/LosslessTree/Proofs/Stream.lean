import Mathlib.Data.List.ModifyLast
import LosslessTree.Proofs.Within

/-!
# Reading positions off a stream

The stream of a tree that is laid out tells where everything stands: reading it with a cursor that
knows the path and the offset of what comes next gives the path and the offset of every node and
every token. So what a tree shows is determined by its stream, and to compare two trees it is enough
to compare their streams.

## Main definitions

* `streamText`, `streamSize`: the text of the tokens of a stream, and its length.
* `Row`, `Part.row`, `Node.rows`: what is seen of a part, its lengths apart, and of a subtree.
* `Cursor`, `Cursor.step`, `Cursor.after`, `Cursor.rows`: reading a stream.

## Main results

* `Cursor.after_events`: the stream of a tree leads to the next position behind it.
* `Node.rows_eq`: the rows of a subtree can be read off its stream.
* `Node.Reaches.exists_split`: the stream of a part stands inside the stream of the tree, behind a
  portion that leads to its position.
-/

namespace LosslessTree

/-! ### Streams of children -/

/-- The stream of a child. -/
def Child.events : Child → List Event
  | token _ _ t => [.push t]
  | node _ tree => tree.events

theorem childrenEvents_cons (child : Child) (rest : List Child) :
    childrenEvents (child :: rest) = child.events ++ childrenEvents rest := by
  cases child <;> rfl

theorem childrenEvents_eq_flatMap (children : List Child) :
    childrenEvents children = children.flatMap Child.events := by
  induction children with
  | nil => rfl
  | cons child rest ih => rw [childrenEvents_cons, ih, List.flatMap_cons]

@[simp] theorem childrenEvents_append (front back : List Child) :
    childrenEvents (front ++ back) = childrenEvents front ++ childrenEvents back := by
  simp [childrenEvents_eq_flatMap]

@[simp] theorem Child.events_moveTo (start : Nat) (child : Child) :
    (child.moveTo start).events = child.events := by
  cases child <;> rfl

/-- Where children stand does not show in the stream. -/
@[simp] theorem childrenEvents_place (start : Nat) (children : List Child) :
    childrenEvents (place start children) = childrenEvents children := by
  induction children generalizing start with
  | nil => rfl
  | cons child rest ih =>
    rw [place, childrenEvents_cons, childrenEvents_cons, Child.events_moveTo, ih]

theorem Tree.events_eq (tree : Tree) :
    tree.events = .start tree.kind :: childrenEvents tree.children ++ [.close] := by
  cases tree
  rw [Tree.events]

/-! ### Texts -/

/-- The text that an event contributes. -/
def Event.text : Event → String
  | push token => token.fullText
  | start _ | close => ""

/-- The text of the tokens of a stream. -/
def streamText (events : List Event) : String :=
  String.join (events.map Event.text)

@[simp] theorem streamText_append (front back : List Event) :
    streamText (front ++ back) = streamText front ++ streamText back := by
  simp [streamText]

/-- The number of bytes that an event contributes. -/
def Event.size : Event → Nat
  | push token => token.size
  | start _ | close => 0

/-- The number of bytes of the tokens of a stream, trivia included. -/
def streamSize : List Event → Nat
  | [] => 0
  | event :: rest => event.size + streamSize rest

@[simp] theorem streamSize_nil : streamSize [] = 0 :=
  rfl

@[simp] theorem streamSize_cons (event : Event) (rest : List Event) :
    streamSize (event :: rest) = event.size + streamSize rest :=
  rfl

@[simp] theorem streamSize_append :
    (front back : List Event) → streamSize (front ++ back) = streamSize front + streamSize back
  | [], back => by simp
  | event :: front, back => by simp [streamSize_append front back, Nat.add_assoc]

theorem utf8ByteSize_streamText (events : List Event) :
    (streamText events).utf8ByteSize = streamSize events := by
  induction events with
  | nil => rfl
  | cons event rest ih =>
    have hsize : event.text.utf8ByteSize = event.size := by
      cases event <;> rfl
    rw [streamText, List.map_cons, String.join_cons, String.utf8ByteSize_append, hsize,
      streamSize_cons]
    exact congrArg (event.size + ·) ih

mutual

/-- The text of a tree is the text of its stream. -/
theorem streamText_events : (tree : Tree) → streamText tree.events = tree.text
  | ⟨_, _, _, children⟩ => by
    rw [Tree.events, Tree.text, ← streamText_childrenEvents children]
    simp [streamText, Event.text]

theorem streamText_childrenEvents :
    (children : List Child) → streamText (childrenEvents children) = childrenText children
  | [] => by simp [childrenEvents, childrenText, streamText]
  | .token _ _ token :: rest => by
    rw [childrenEvents, childrenText, ← streamText_childrenEvents rest]
    simp [streamText, Event.text]
  | .node _ tree :: rest => by
    rw [childrenEvents, childrenText, streamText_append, streamText_events tree,
      streamText_childrenEvents rest]

end

/-- A tree that is laid out is as long as the tokens of its stream. -/
theorem Tree.LaidOut.streamSize_events {tree : Tree} (h : tree.LaidOut) :
    streamSize tree.events = tree.byteLen := by
  rw [← utf8ByteSize_streamText, streamText_events, h.byteLen_eq]

/-! ### Rows -/

/-- What stands at a position: a node of some kind, or a token. -/
inductive Label where
  | node (kind : NodeKind)
  | token (token : Token)
  deriving DecidableEq, Repr

/-- What is seen of a part: the path to it, what it is, and where it starts. -/
structure Row where
  path : List Nat
  label : Label
  offset : Nat
  deriving DecidableEq, Repr

namespace Part

/-- The absolute offset of a part. -/
def offset : Part → Nat
  | node n => n.offset
  | leaf l => l.offset

/-- The length of a part: that of a node is stored, that of a token is computed. -/
def byteLen : Part → Except Overflow Nat
  | node n => .ok n.byteLen
  | leaf l => l.byteLen

/-- The source text of a part, trivia included. -/
def text : Part → String
  | node n => n.text
  | leaf l => l.fullText

/-- The stream of a part. -/
def events : Part → List Event
  | node n => n.tree.events
  | leaf l => [.push l.token]

/-- The indices on the way down from the root to a part. -/
def path : Part → List Nat
  | node n => n.path
  | leaf l => l.parent.path ++ [l.index]

/-- The row of a part. -/
def row : Part → Row
  | node n => ⟨n.path, .node n.kind, n.offset⟩
  | leaf l => ⟨l.parent.path ++ [l.index], .token l.token, l.offset⟩

end Part

/-- The rows of a subtree in textual order. -/
def Node.rows (node : Node) : List Row :=
  node.allParts.map Part.row

theorem Node.rows_eq_cons (node : Node) :
    node.rows = (Part.node node).row ::
      node.parts.flatMap (Part.elim rows fun leaf => [(Part.leaf leaf).row]) :=
  node.map_allParts Part.row

/-! ### Cursors -/

/-- The position of what comes next in a stream. -/
structure Cursor where
  path : List Nat
  offset : Nat
  deriving DecidableEq, Repr

namespace Cursor

/-- Reads one event: what follows the start of a node is its first child, what follows a token or
the end of a node is its next sibling. -/
def step (cursor : Cursor) : Event → Cursor
  | .start _ => ⟨cursor.path ++ [0], cursor.offset⟩
  | .push token => ⟨cursor.path.modifyLast (· + 1), cursor.offset + token.size⟩
  | .close => ⟨cursor.path.dropLast.modifyLast (· + 1), cursor.offset⟩

/-- Reads a stream. -/
def after (cursor : Cursor) (events : List Event) : Cursor :=
  events.foldl step cursor

/-- The row of an event: nodes are listed where they start. -/
def row? (cursor : Cursor) : Event → Option Row
  | .start kind => some ⟨cursor.path, .node kind, cursor.offset⟩
  | .push token => some ⟨cursor.path, .token token, cursor.offset⟩
  | .close => none

/-- The rows of a stream that is read from a position on. -/
def rows (cursor : Cursor) : List Event → List Row
  | [] => []
  | event :: rest => (cursor.row? event).toList ++ (cursor.step event).rows rest

@[simp] theorem after_nil (cursor : Cursor) : cursor.after [] = cursor :=
  rfl

@[simp] theorem after_cons (cursor : Cursor) (event : Event) (rest : List Event) :
    cursor.after (event :: rest) = (cursor.step event).after rest :=
  rfl

@[simp] theorem after_append (cursor : Cursor) (front back : List Event) :
    cursor.after (front ++ back) = (cursor.after front).after back :=
  List.foldl_append

theorem rows_append (cursor : Cursor) (front back : List Event) :
    cursor.rows (front ++ back) = cursor.rows front ++ (cursor.after front).rows back := by
  induction front generalizing cursor with
  | nil => rfl
  | cons event rest ih => simp [rows, ih]

/-- The offset moves by the bytes that were read. -/
theorem offset_after (cursor : Cursor) (events : List Event) :
    (cursor.after events).offset = cursor.offset + streamSize events := by
  induction events generalizing cursor with
  | nil => rfl
  | cons event rest ih =>
    rw [after_cons, ih]
    cases event <;> simp [step, Event.size, Nat.add_assoc]

/-- Children lead from the position of the first one to the position behind the last one. -/
theorem after_childrenEvents_of (children : List Child)
    (h : ∀ offset sub, .node offset sub ∈ children → ∀ path start,
      (Cursor.mk path start).after sub.events =
        ⟨path.modifyLast (· + 1), start + sub.byteLen⟩) (path : List Nat) (index start : Nat) :
    (Cursor.mk (path ++ [index]) start).after (childrenEvents children) =
      ⟨path ++ [index + children.length], start + childrenSize children⟩ := by
  induction children generalizing index start with
  | nil => simp [childrenEvents, childrenSize]
  | cons child rest ih =>
    have hrest := ih fun offset sub hmem => h offset sub (.tail _ hmem)
    have hchild : (Cursor.mk (path ++ [index]) start).after child.events =
        ⟨path ++ [index + 1], start + child.size⟩ := by
      cases child with
      | token => simp [Child.events, step, Child.size, List.modifyLast_concat]
      | node offset tree =>
        rw [Child.events, h offset tree (.head _), List.modifyLast_concat]
        rfl
    rw [childrenEvents_cons, after_append, hchild, hrest]
    simp [childrenSize, Nat.add_assoc, Nat.add_comm 1]

/-- The stream of a tree leads to the next position behind it. -/
theorem after_events {tree : Tree} (h : tree.LaidOut) (path : List Nat) (start : Nat) :
    (Cursor.mk path start).after tree.events =
      ⟨path.modifyLast (· + 1), start + tree.byteLen⟩ := by
  induction h generalizing path start with
  | @intro tree _ hlen _ _ ih =>
    have hchildren := after_childrenEvents_of tree.children fun _ _ hmem => ih hmem
    rw [tree.events_eq, List.cons_append, after_cons, step, after_append, hchildren]
    simp [step, hlen]

theorem after_childrenEvents (children : List Child)
    (h : ∀ offset sub, .node offset sub ∈ children → sub.LaidOut) (path : List Nat)
    (index start : Nat) :
    (Cursor.mk (path ++ [index]) start).after (childrenEvents children) =
      ⟨path ++ [index + children.length], start + childrenSize children⟩ :=
  after_childrenEvents_of children (fun offset sub hmem => after_events (h offset sub hmem)) ..

end Cursor

namespace Node

/-! ### Positions inside a tree -/

/-- The rows of the parts of a node from some index on can be read off the stream. -/
theorem flatMap_partsFrom_eq {node : Node} (children : List Child)
    (hlaid : ∀ offset sub, .node offset sub ∈ children → sub.LaidOut) (index start : Nat)
    (hplaced : place start children = children)
    (h : ∀ child, .node child ∈ node.partsFrom index children → child.tree.LaidOut →
      child.rows = (Cursor.mk child.path child.offset).rows child.tree.events) :
    (node.partsFrom index children).flatMap (Part.elim rows fun leaf => [(Part.leaf leaf).row]) =
      (Cursor.mk (node.path ++ [index]) (node.offset + start)).rows (childrenEvents children) := by
  induction children generalizing index start with
  | nil => rfl
  | cons child rest ih =>
    obtain ⟨hhead, htail⟩ := List.cons_eq_cons.1 hplaced
    have hrest := ih (fun offset sub hmem => hlaid offset sub (.tail _ hmem)) (index + 1)
      (start + child.size) htail fun child hmem => h child (.tail _ hmem)
    rw [partsFrom_cons, List.flatMap_cons, hrest, childrenEvents_cons, Cursor.rows_append]
    cases child with
    | token offset id token =>
      obtain rfl : start = offset := by simpa [Child.moveTo] using hhead
      simp [Child.events, Child.size, part, Part.elim, Part.row, Cursor.rows, Cursor.row?,
        Cursor.step, List.modifyLast_concat, Nat.add_assoc]
    | node offset tree =>
      obtain rfl : start = offset := by simpa [Child.moveTo] using hhead
      have htree := hlaid start tree (.head _)
      have hrows := h (inner node index (node.offset + start) tree) (.head _) htree
      have hafter := Cursor.after_events htree (node.path ++ [index]) (node.offset + start)
      rw [List.modifyLast_concat] at hafter
      rw [path_inner, offset_inner, tree_inner] at hrows
      rw [part, Part.elim, hrows, Child.events, hafter, Child.size, Nat.add_assoc]

/-- **The rows of a subtree can be read off its stream.** -/
theorem rows_eq {node : Node} (h : node.tree.LaidOut) :
    node.rows = (Cursor.mk node.path node.offset).rows node.tree.events := by
  induction node using Node.induction with
  | step node ih =>
    have hbelow := flatMap_partsFrom_eq node.tree.children (fun _ _ hmem => h.of_mem hmem) 0 0
      h.place_children fun child hmem => ih child (mem_children.2 hmem)
    rw [rows_eq_cons, parts_eq_partsFrom, hbelow, node.tree.events_eq, List.cons_append,
      Cursor.rows, Cursor.rows_append]
    simp [Cursor.row?, Cursor.step, Cursor.rows, Part.row, kind]

/-- A token directly below a node knows its node and its index. -/
theorem parent_eq_of_getElem?_parts {node : Node} {leaf : Leaf} {index : Nat}
    (h : node.parts[index]? = some (.leaf leaf)) : leaf.parent = node ∧ leaf.index = index := by
  rw [getElem?_parts] at h
  obtain ⟨child, -, hpart⟩ := Option.map_eq_some_iff.1 h
  cases child with
  | token offset id token =>
    cases hpart
    exact ⟨rfl, rfl⟩
  | node offset tree => cases hpart

/-- A token directly below a node stands among its parts, at its index. -/
theorem getElem?_parts_of_mem_tokens {node : Node} {leaf : Leaf} (h : leaf ∈ node.tokens) :
    node.parts[leaf.index]? = some (.leaf leaf) := by
  obtain ⟨part, hpart, hleaf⟩ := List.mem_filterMap.1 h
  obtain ⟨index, hindex⟩ := List.mem_iff_getElem?.1 hpart
  cases part with
  | node => cases hleaf
  | leaf other =>
    cases hleaf
    rw [(parent_eq_of_getElem?_parts hindex).2]
    exact hindex

theorem map_events_parts (node : Node) :
    node.parts.map Part.events = node.tree.children.map Child.events := by
  refine List.ext_getElem? fun place => ?_
  rw [List.getElem?_map, List.getElem?_map, getElem?_parts, Option.map_map]
  congr 1
  funext child
  cases child <;> rfl

theorem flatMap_events_take (node : Node) (index : Nat) :
    (node.parts.take index).flatMap Part.events =
      childrenEvents (node.tree.children.take index) := by
  rw [childrenEvents_eq_flatMap, List.flatMap_def, List.flatMap_def, List.map_take, List.map_take,
    map_events_parts]

theorem flatMap_events_drop (node : Node) (index : Nat) :
    (node.parts.drop index).flatMap Part.events =
      childrenEvents (node.tree.children.drop index) := by
  rw [childrenEvents_eq_flatMap, List.flatMap_def, List.flatMap_def, List.map_drop, List.map_drop,
    map_events_parts]

theorem events_eq_parts (node : Node) :
    node.tree.events = .start node.kind :: node.parts.flatMap Part.events ++ [.close] := by
  have hall := node.flatMap_events_drop 0
  rw [List.drop_zero, List.drop_zero] at hall
  rw [hall, node.tree.events_eq, kind]

/-- The stream of a node up to the part at an index. -/
def before (node : Node) (index : Nat) : List Event :=
  .start node.kind :: (node.parts.take index).flatMap Part.events

/-- The stream of a node behind the part at an index. -/
def behind (node : Node) (index : Nat) : List Event :=
  (node.parts.drop (index + 1)).flatMap Part.events ++ [.close]

/-- The stream of a part stands inside the stream of its node. -/
theorem events_eq_append {node : Node} {index : Nat} {part : Part}
    (h : node.parts[index]? = some part) :
    node.tree.events = node.before index ++ part.events ++ node.behind index := by
  rw [events_eq_parts, parts_eq_append h]
  simp [before, behind]

/-- The portion before a part leads from the node to the part. -/
theorem after_before {node : Node} (hlaid : node.tree.LaidOut) {index : Nat} {part : Part}
    (h : node.parts[index]? = some part) :
    (Cursor.mk node.path node.offset).after (node.before index) =
      ⟨node.path ++ [index], part.offset⟩ := by
  rw [getElem?_parts] at h
  obtain ⟨child, hchild, rfl⟩ := Option.map_eq_some_iff.1 h
  obtain ⟨hlt, -⟩ := List.getElem?_eq_some_iff.1 hchild
  have hafter := Cursor.after_childrenEvents (node.tree.children.take index)
    (fun offset sub hmem => hlaid.of_mem (List.mem_of_mem_take hmem)) node.path 0 node.offset
  have hoffset : (node.part index child).offset = node.offset + child.offset := by
    cases child <;> rfl
  rw [before, flatMap_events_take, Cursor.after_cons, Cursor.step, hafter, hoffset,
    hlaid.offset_eq hchild]
  simp [Nat.min_eq_left (Nat.le_of_lt hlt)]

/-- **The stream of a node stands inside the stream of the tree**, behind a portion that leads to
the position of the node. -/
theorem Within.exists_split {start node : Node} (h : start.Within node)
    (hlaid : start.tree.LaidOut) :
    ∃ front back, start.tree.events = front ++ node.tree.events ++ back ∧
      (Cursor.mk start.path start.offset).after front = ⟨node.path, node.offset⟩ := by
  induction h with
  | refl => exact ⟨[], [], by simp, rfl⟩
  | @tail node child hnode hchild ih =>
    obtain ⟨front, back, hevents, hafter⟩ := ih
    obtain ⟨index, hindex⟩ := exists_of_mem_children hchild
    refine ⟨front ++ node.before index, node.behind index ++ back, ?_, ?_⟩
    · rw [hevents, events_eq_append hindex]
      simp [Part.events]
    · rw [Cursor.after_append, hafter, after_before (Within.laidOut hnode hlaid) hindex]
      obtain ⟨offset, tree, -, rfl⟩ := exists_of_getElem?_parts hindex
      rfl

/-- **The stream of a part stands inside the stream of the tree**, behind a portion that leads to
the position of the part. -/
theorem Reaches.exists_split {start : Node} {part : Part} (h : start.Reaches part)
    (hlaid : start.tree.LaidOut) :
    ∃ front back, start.tree.events = front ++ part.events ++ back ∧
      (Cursor.mk start.path start.offset).after front = ⟨part.path, part.offset⟩ := by
  cases part with
  | node node => exact Within.exists_split h hlaid
  | leaf leaf =>
    obtain ⟨node, hnode, hleaf⟩ := h
    obtain ⟨index, hindex⟩ := List.mem_iff_getElem?.1 hleaf
    obtain ⟨hparent, hplace⟩ := parent_eq_of_getElem?_parts hindex
    obtain ⟨front, back, hevents, hafter⟩ := hnode.exists_split hlaid
    refine ⟨front ++ node.before index, node.behind index ++ back, ?_, ?_⟩
    · rw [hevents, events_eq_append hindex]
      simp only [List.append_assoc]
    · rw [Cursor.after_append, hafter, after_before (hnode.laidOut hlaid) hindex, Part.path,
        hparent, hplace]

end Node

end LosslessTree
