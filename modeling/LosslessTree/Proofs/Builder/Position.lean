import LosslessTree.Proofs.Builder.Grammar
import LosslessTree.Proofs.Builder.Identity
import LosslessTree.Proofs.Marks
import LosslessTree.Proofs.Navigation

/-!
# Where a builder stands

A builder counts the bytes it was offered. It knows nothing of offsets then: the nodes around are
still open, and a child is placed only relative to the node around it. Still, the count is the offset
of what comes next in the finished tree, since at every moment the builder stands at the cursor that
has read the events taken so far.

## Main definitions

* `Builder.cursor`: the place and the offset of what comes next.
* `Builder.stateAfter`, `Builder.traceAfter`: a new builder after events, and the trace written.
* `Builder.Finishes`: the events are the stream of a tree, where the end of the root may be missing.

## Main results

* `Builder.Takes.cursor_eq`, `Builder.Runs.cursor_eq`: a builder moves as a cursor does.
* `Builder.exists_finishes_of_build`: what is built has the stream that was taken.
* `Builder.Finishes.exists_started`, `Builder.Finishes.exists_closed`: nodes are started and closed
  at the positions where they start and end in the finished tree.
-/

namespace LosslessTree

/-- Open nodes give the next place to the operation that opened them. -/
theorem StackMade.origin_nextIdIn {kept : Tree → Prop} {origin : Nat} {stack : List OpenNode}
    (h : StackMade kept origin stack) : (nextIdIn origin stack).origin = origin := by
  induction stack with
  | nil => rfl
  | cons innermost outer ih =>
    obtain ⟨hid, -, houter⟩ := h
    rw [nextIdIn, OpenNode.nextId, Ident.child, hid, ih houter]

namespace Builder

variable {builder after : Builder} {event : Event} {events front back : List Event}
  {lines : List TraceLine} {kept : Tree → Prop}

/-! ### Where a builder stands -/

/-- The place and the offset of what comes next. -/
def cursor (builder : Builder) : Cursor :=
  ⟨builder.nextId.place, builder.position⟩

theorem Takes.rootClosed_eq (h : builder.Takes event after lines) : builder.rootClosed = false := by
  cases h <;> assumption

theorem Takes.position_eq (h : builder.Takes event after lines) :
    after.position = builder.position + event.size := by
  cases h <;> rfl

/-- **Taking an event moves a builder as reading it moves a cursor**, unless the root is closed. -/
theorem Takes.cursor_eq (h : builder.Takes event after lines)
    (hmade : StackMade kept builder.origin builder.stack) (hopen : after.rootClosed = false) :
    after.cursor = builder.cursor.step event := by
  cases h with
  | start kind _ => rfl
  | push token _ hstack _ =>
    simp [cursor, nextId, hstack, OpenNode.nextId, OpenNode.grow, Ident.child, Cursor.step,
      List.modifyLast_concat]
  | closeRoot _ _ => cases hopen
  | closeInner _ hstack =>
    -- The node that is closed stands at the next place of the node around it.
    rw [hstack] at hmade
    have hid := hmade.1
    simp [cursor, nextId, hstack, OpenNode.nextId, OpenNode.grow, Ident.child, Cursor.step,
      List.modifyLast_concat, hid, nextIdIn]

namespace Runs

/-- Events taken in two portions. -/
theorem exists_of_append (h : Runs builder (front ++ back) after lines) :
    ∃ middle lines₁ lines₂, Runs builder front middle lines₁ ∧ Runs middle back after lines₂ ∧
      lines = lines₁ ++ lines₂ := by
  induction front generalizing builder lines with
  | nil => exact ⟨builder, [], lines, .nil builder, h, rfl⟩
  | cons event rest ih =>
    cases h with
    | @cons _ next _ _ _ written _ htakes hrest =>
      obtain ⟨middle, lines₁, lines₂, hfront, hback, rfl⟩ := ih hrest
      exact ⟨middle, written ++ lines₁, lines₂, .cons htakes hfront, hback,
        (List.append_assoc ..).symm⟩

theorem position_eq (h : Runs builder events after lines) :
    after.position = builder.position + streamSize events := by
  induction h with
  | nil => rfl
  | cons htakes _ ih => rw [ih, htakes.position_eq, streamSize_cons, Nat.add_assoc]

theorem stackMade (h : Runs builder events after lines)
    (hmade : StackMade kept builder.origin builder.stack) :
    after.origin = builder.origin ∧ StackMade kept builder.origin after.stack := by
  induction h with
  | nil => exact ⟨rfl, hmade⟩
  | cons htakes _ ih =>
    obtain ⟨horigin, hnext⟩ := htakes.stackMade hmade
    rw [← horigin] at hnext ⊢
    exact ih hnext

/-- **Taking events moves a builder as reading them moves a cursor**, as long as the root is
open. -/
theorem cursor_eq (h : Runs builder events after lines)
    (hmade : StackMade kept builder.origin builder.stack) (hopen : after.rootClosed = false) :
    after.cursor = builder.cursor.after events := by
  induction h with
  | nil => rfl
  | @cons builder middle after event rest _ _ htakes hrest ih =>
    have hmiddle : middle.rootClosed = false := by
      cases hrest with
      | nil => exact hopen
      | cons hnext _ => exact hnext.rootClosed_eq
    obtain ⟨horigin, hnext⟩ := htakes.stackMade hmade
    rw [← horigin] at hnext
    rw [ih hnext hopen, htakes.cursor_eq hmade hmiddle, Cursor.after_cons]

end Runs

/-! ### A new builder -/

/-- A new builder after events. -/
def stateAfter (origin : Nat) (events : List Event) : Builder :=
  ((new origin).run events).builder

/-- The trace lines that a new builder writes for events. -/
def traceAfter (origin : Nat) (events : List Event) : List TraceLine :=
  ((new origin).run events).trace

section New

variable {origin : Nat} {tree : Tree} {innermost : OpenNode} {outer : List OpenNode}

namespace Runs

theorem stateAfter_eq (h : (new origin).Runs events after lines) :
    stateAfter origin events = after := by
  rw [stateAfter, (sound_new origin).run_eq_of_runs h, Reply.taken]

theorem traceAfter_eq (h : (new origin).Runs events after lines) :
    traceAfter origin events = lines := by
  rw [traceAfter, (sound_new origin).run_eq_of_runs h, Reply.taken]

/-- The state before an event of a run, and what taking the event does to it. -/
theorem exists_takes (h : (new origin).Runs (front ++ event :: back) after lines) :
    ∃ next written lines', (new origin).Runs front (stateAfter origin front)
        (traceAfter origin front) ∧
      (stateAfter origin front).Takes event next written ∧ Runs next back after lines' ∧
      traceAfter origin (front ++ [event]) = traceAfter origin front ++ written := by
  obtain ⟨middle, lines₁, lines₂, hfront, hback, -⟩ := h.exists_of_append
  cases hback with
  | @cons _ next _ _ _ written lines' htakes hrest =>
    obtain rfl := hfront.stateAfter_eq
    obtain rfl := hfront.traceAfter_eq
    exact ⟨next, written, lines', hfront, htakes, hrest,
      (hfront.append (.single htakes)).traceAfter_eq⟩

theorem stackMade_of_new (h : (new origin).Runs events after lines) :
    after.origin = origin ∧ StackMade (fun _ => False) origin after.stack :=
  h.stackMade (show StackMade (fun _ => False) origin [] from trivial)

theorem cursor_eq_of_new (h : (new origin).Runs events after lines)
    (hopen : after.rootClosed = false) : after.cursor = (Cursor.mk [] 0).after events :=
  h.cursor_eq (show StackMade (fun _ => False) origin [] from trivial) hopen

/-- What is started gets an identity of the operation. -/
theorem origin_nextId (h : (new origin).Runs events after lines) : after.nextId.origin = origin := by
  obtain ⟨horigin, hmade⟩ := h.stackMade_of_new
  rw [after.nextId_eq, horigin]
  exact hmade.origin_nextIdIn

/-- What is open has an identity of the operation. -/
theorem origin_innermost (h : (new origin).Runs events after lines)
    (hstack : after.stack = innermost :: outer) : innermost.id.origin = origin := by
  have hnext := h.origin_nextId
  rwa [nextId, hstack] at hnext

/-- A builder that has taken the stream of a tree up to some event stands at that event. -/
theorem exists_marks (h : (new origin).Runs front builder lines)
    (hopen : builder.rootClosed = false) (hlaid : tree.LaidOut)
    (hevents : tree.events = front ++ event :: back) :
    ∃ node, (Node.top tree).Within node ∧ node.Marks event builder.cursor := by
  rw [h.cursor_eq_of_new hopen]
  exact Node.exists_marks (show (Node.top tree).tree.LaidOut from hlaid) hevents

/-- The innermost open node is a node of every tree whose stream goes on from here. -/
theorem exists_innermost (h : (new origin).Runs front builder lines)
    (hopen : builder.rootClosed = false) (hstack : builder.stack = innermost :: outer)
    (hlaid : tree.LaidOut) (hevents : tree.events = front ++ back) :
    ∃ node, (Node.top tree).Within node ∧ node.path = innermost.id.place ∧
      node.kind = innermost.draft.kind := by
  have hfront : front = stackEvents outer ++ innermost.events := by
    have hstream := h.stream_eq
    simpa [stream, hopen, hstack, new, stackEvents] using hstream.symm
  have hstart : tree.events = stackEvents outer ++ .start innermost.draft.kind ::
      (childrenEvents innermost.draft.children ++ back) := by
    rw [hevents, hfront, OpenNode.events, List.append_assoc, List.cons_append]
  obtain ⟨node, hnode, hmarks⟩ :=
    Node.exists_marks (show (Node.top tree).tree.LaidOut from hlaid) hstart
  obtain ⟨hkind, hcursor⟩ := hmarks.of_start
  -- Reading what was closed inside the node leads from its start to the next place inside it.
  have hinside : builder.cursor.path = node.path ++ [innermost.draft.children.length] := by
    have hdraft := (h.sound (sound_new origin)).laidOut innermost (by simp [hstack]) innermost.id
    have hchildren := Cursor.after_childrenEvents innermost.draft.children
      (fun _ _ hmem => hdraft.of_mem hmem) node.path 0 node.offset
    have houter : (Cursor.mk [] 0).after (stackEvents outer) = ⟨node.path, node.offset⟩ := hcursor
    rw [h.cursor_eq_of_new hopen, hfront, Cursor.after_append, houter, OpenNode.events,
      Cursor.after_cons, Cursor.step, hchildren, Nat.zero_add]
  simp only [cursor, nextId, hstack, OpenNode.nextId, Ident.child] at hinside
  exact ⟨node, hnode, (List.append_inj' hinside rfl).1.symm, hkind.symm⟩

/-- **The innermost open node ends at the position** if it is closed next. -/
theorem exists_closed (h : (new origin).Runs front builder lines)
    (hopen : builder.rootClosed = false) (hstack : builder.stack = innermost :: outer)
    (hlaid : tree.LaidOut) (hevents : tree.events = front ++ .close :: back) :
    ∃ node, (Node.top tree).Within node ∧ node.path = innermost.id.place ∧
      node.kind = innermost.draft.kind ∧ builder.position = node.offset + node.byteLen := by
  obtain ⟨node, hnode, hpath, hkind⟩ := h.exists_innermost hopen hstack hlaid hevents
  obtain ⟨closed, hclosed, hmarks⟩ := h.exists_marks hopen hlaid hevents
  have hcursor := hmarks.of_close
  have hplace := congrArg Cursor.path hcursor
  simp only [cursor, nextId, hstack, OpenNode.nextId, Ident.child] at hplace
  -- The event closes the node at the place of the innermost open one, and this is that node.
  obtain rfl : node = closed :=
    hnode.eq_of_path_eq hclosed (hpath.trans (List.append_inj' hplace rfl).1)
  exact ⟨node, hnode, hpath, hkind, congrArg Cursor.offset hcursor⟩

end Runs

/-! ### The finished tree -/

/-- The events were taken, and they are the stream of the tree, where the end of the root may be
missing; every node of the tree has the identity of its place. -/
structure Finishes (origin : Nat) (events : List Event) (tree : Tree) : Prop where
  runs : (new origin).Runs events (stateAfter origin events) (traceAfter origin events)
  laidOut : tree.LaidOut
  id_eq : ∀ {node : Node}, (Node.top tree).Within node → node.tree.id = ⟨origin, node.path⟩
  events_eq : tree.events =
    events ++ if (stateAfter origin events).rootClosed then [] else [.close]

theorem exists_finishes_of_build {root : Node} (h : build origin events = .ok root) :
    ∃ tree, root = .top tree ∧ Finishes origin events tree := by
  obtain ⟨after, lines, node, hruns, hstack, rfl⟩ := build_eq_ok_iff.1 h
  obtain rfl := hruns.stateAfter_eq
  obtain rfl := hruns.traceAfter_eq
  obtain ⟨-, hmade⟩ := hruns.stackMade_of_new
  rw [hstack] at hmade
  obtain ⟨hid, hnode, -⟩ := hmade
  refine ⟨node.tree, rfl, hruns,
    (hruns.sound (sound_new origin)).laidOut node (by simp [hstack]) node.id,
    fun hbelow => ?_, ?_⟩
  · have htree := hnode.tree
    rw [hid] at htree
    have hmade := Tree.MadeBy.of_within htree (fun _ _ _ hkept _ => hkept) hbelow
    exact hmade.kept_or_id_eq.resolve_left id
  · have hstream : events = node.events ++
        if (stateAfter origin events).rootClosed then [.close] else [] := by
      have hstream := hruns.stream_eq
      simpa [stream, hstack, new, stackEvents] using hstream.symm
    rw [node.events_tree]
    cases hclosed : (stateAfter origin events).rootClosed <;> simpa [hclosed] using hstream.symm

namespace Finishes

/-- A place is that of one node, and the node has its identity. -/
theorem at?_eq (h : Finishes origin events tree) {node : Node} {ident : Ident}
    (hnode : (Node.top tree).Within node) (hpath : node.path = ident.place)
    (horigin : ident.origin = origin) :
    (Node.top tree).at? ident.place = some node ∧ node.tree.id = ident := by
  refine ⟨Node.at?_eq_some_iff.2 ⟨hnode, hpath⟩, ?_⟩
  rw [h.id_eq hnode, hpath, ← horigin]

/-- **A node is started at its offset in the finished tree.** -/
theorem exists_started {kind : NodeKind}
    (h : Finishes origin (front ++ .start kind :: back) tree) :
    ∃ node, (Node.top tree).at? (stateAfter origin front).nextId.place = some node ∧
      node.tree.id = (stateAfter origin front).nextId ∧ node.kind = kind ∧
      (stateAfter origin front).position = node.offset := by
  obtain ⟨next, written, lines', hfront, htakes, -, -⟩ := h.runs.exists_takes
  have hevents := h.events_eq
  rw [List.append_assoc] at hevents
  obtain ⟨node, hnode, hmarks⟩ := hfront.exists_marks htakes.rootClosed_eq h.laidOut hevents
  obtain ⟨rfl, hcursor⟩ := hmarks.of_start
  obtain ⟨hplace, hident⟩ :=
    h.at?_eq hnode (congrArg Cursor.path hcursor).symm hfront.origin_nextId
  exact ⟨node, hplace, hident, rfl, congrArg Cursor.offset hcursor⟩

/-- **A node is closed where it ends in the finished tree.** -/
theorem exists_closed (h : Finishes origin (front ++ .close :: back) tree)
    (hstack : (stateAfter origin front).stack = innermost :: outer) :
    ∃ node, (Node.top tree).at? innermost.id.place = some node ∧ node.tree.id = innermost.id ∧
      node.kind = innermost.draft.kind ∧
      (stateAfter origin front).position = node.offset + node.byteLen := by
  obtain ⟨next, written, lines', hfront, htakes, -, -⟩ := h.runs.exists_takes
  have hevents := h.events_eq
  rw [List.append_assoc] at hevents
  obtain ⟨node, hnode, hpath, hkind, hposition⟩ :=
    hfront.exists_closed htakes.rootClosed_eq hstack h.laidOut hevents
  obtain ⟨hplace, hident⟩ := h.at?_eq hnode hpath (hfront.origin_innermost hstack)
  exact ⟨node, hplace, hident, hkind, hposition⟩

theorem position_eq (h : Finishes origin events tree) :
    (stateAfter origin events).position = tree.byteLen := by
  have hsize := congrArg streamSize h.events_eq
  rw [h.laidOut.streamSize_events, streamSize_append] at hsize
  rw [h.runs.position_eq, hsize]
  cases (stateAfter origin events).rootClosed <;> simp [new, Event.size]

end Finishes

end New

end Builder

end LosslessTree
