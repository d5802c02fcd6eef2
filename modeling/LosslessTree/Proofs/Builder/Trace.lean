import LosslessTree.Proofs.Builder.Position
import LosslessTree.Proofs.Walk.Progress

/-!
# What a builder traces

Whenever a node is started or closed, a builder writes a line with the position into its trace. The
lines depend on the stream alone, and since the position is the offset of what comes next in the
finished tree, the trace of building a tree reads like a walk through the finished tree.

## Main definitions

* `Builder.linesFrom`: the trace lines of a stream.
* `WalkEvent.built`: the trace line that building a tree writes for an event of the walk through it.
* `Builder.ClosesRoot`: the root is closed by an event and not left to finishing.
* `Builder.Traced`: positions and trace agree with the finished tree.

## Main results

* `Builder.Runs.lines_eq`: the trace can be read off the stream.
* `Builder.linesFrom_body`, `Builder.linesFrom_events`: the lines of the stream of a tree are those
  of the walk through it.
* `Builder.traced_of_build`: positions and trace agree with the finished tree.
-/

namespace LosslessTree

/-- The trace line that building a tree writes for an event of the walk through the tree: a node is
opened where it starts and closed where it ends. -/
def WalkEvent.built : WalkEvent → TraceLine
  | enter n => .opened n.kind n.offset
  | leave n =>
    match n.parent? with
    | none => .closedRoot n.kind (n.offset + n.byteLen)
    | some _ => .closed n.kind (n.offset + n.byteLen)

/-- Only leaving the root writes the line about the root. -/
theorem WalkEvent.eq_leave_of_built {tree : Tree} {event : WalkEvent} {kind : NodeKind}
    {position : Nat} (h : (Node.top tree).Within event.node)
    (hbuilt : event.built = .closedRoot kind position) : event = .leave (.top tree) := by
  cases event with
  | enter n => cases hbuilt
  | leave n =>
    rcases h.eq_top_or_inner with htop | ⟨parent, index, offset, sub, -, -, hinner⟩
    · exact congrArg WalkEvent.leave htop
    · obtain rfl : n = .inner parent index (parent.offset + offset) sub := hinner
      cases hbuilt

namespace Builder

variable {builder after : Builder} {event : Event} {events : List Event} {lines : List TraceLine}

/-! ### The trace as read off the stream -/

/-- The kinds of the nodes that can still be closed, innermost first. -/
def openKinds (builder : Builder) : List NodeKind :=
  if builder.rootClosed then [] else builder.stack.map fun node => node.draft.kind

/-- The trace lines of a stream that is read from a position on, inside nodes of the given kinds. -/
def linesFrom (kinds : List NodeKind) (position : Nat) : List Event → List TraceLine
  | [] => []
  | .start kind :: rest => .opened kind position :: linesFrom (kind :: kinds) position rest
  | .push token :: rest => linesFrom kinds (position + token.size) rest
  | .close :: rest =>
    match kinds with
    | [] => linesFrom [] position rest
    | [root] => .closedRoot root position :: linesFrom [] position rest
    | innermost :: outer => .closed innermost position :: linesFrom outer position rest

theorem Takes.linesFrom_eq (h : builder.Takes event after lines) (rest : List Event) :
    linesFrom builder.openKinds builder.position (event :: rest) =
      lines ++ linesFrom after.openKinds after.position rest := by
  cases h with
  | start kind hopen => simp [openKinds, hopen, linesFrom, Draft.empty]
  | push token hopen hstack _ => simp [openKinds, hopen, hstack, linesFrom, OpenNode.grow]
  | closeRoot hopen hstack => simp [openKinds, hopen, hstack, linesFrom]
  | closeInner hopen hstack => simp [openKinds, hopen, hstack, linesFrom, OpenNode.grow]

/-- **The trace can be read off the stream.** -/
theorem Runs.lines_eq (h : Runs builder events after lines) :
    lines = linesFrom builder.openKinds builder.position events := by
  induction h with
  | nil => rfl
  | cons htakes _ ih => rw [htakes.linesFrom_eq, ih]

/-! ### The trace as a walk -/

/-- The loop over the parts of a node: if the streams of the nodes among them have the lines of the
walks through these nodes, the streams of the parts have them, too. -/
theorem linesFrom_parts {kinds : List NodeKind} {parts : List Part} {start stop : Nat}
    (htiles : Tiles start stop parts)
    (h : ∀ child, .node child ∈ parts → ∀ rest,
      linesFrom kinds child.offset (child.tree.events ++ rest) =
        (child.tour fun _ => false).map WalkEvent.built ++
          linesFrom kinds (child.offset + child.byteLen) rest) (rest : List Event) :
    linesFrom kinds start (parts.flatMap Part.events ++ rest) =
      (parts.flatMap Node.partTour).map WalkEvent.built ++ linesFrom kinds stop rest := by
  induction parts generalizing start with
  | nil =>
    obtain rfl : start = stop := htiles
    rfl
  | cons part others ih =>
    obtain ⟨hoffset, length, hlength, hothers⟩ := htiles
    have hrest := ih hothers fun child hmem => h child (.tail _ hmem)
    rw [List.flatMap_cons, List.flatMap_cons, List.append_assoc, List.map_append,
      List.append_assoc, ← hrest]
    cases part with
    | leaf leaf =>
      obtain rfl := leaf.token.measures_byteLen.eq_of_eq_ok hlength
      rfl
    | node child =>
      cases hlength
      rw [← hoffset]
      exact h child (.head _) _

/-- **The lines written inside a node are those of the walks through its children.** -/
theorem linesFrom_body {node : Node} (hlaid : node.tree.LaidOut) (kinds : List NodeKind)
    (rest : List Event) :
    linesFrom (node.kind :: kinds) node.offset (node.parts.flatMap Part.events ++ rest) =
      (node.parts.flatMap Node.partTour).map WalkEvent.built ++
        linesFrom (node.kind :: kinds) (node.offset + node.byteLen) rest := by
  induction node using Node.induction generalizing kinds rest with
  | step node ih =>
    refine linesFrom_parts (Node.tiles_parts hlaid) (fun child hmem rest => ?_) rest
    have hchild := Node.mem_children.2 hmem
    have hbody := ih child hchild ((Node.Within.of_mem_children hchild).laidOut hlaid)
      (node.kind :: kinds)
    rw [child.events_eq_parts, child.tour_eq_parts, List.cons_append, List.cons_append,
      List.append_assoc, linesFrom, hbody]
    simp [linesFrom, WalkEvent.built, Node.parent?_of_mem_children hchild]

/-- The lines of the stream of a tree, up to the end of the root and from there on. -/
theorem linesFrom_root {tree : Tree} (hlaid : tree.LaidOut)
    (hevents : tree.events = events ++ [.close]) (rest : List Event) :
    linesFrom [] 0 (events ++ rest) =
      ((Node.top tree).tour fun _ => false).dropLast.map WalkEvent.built ++
        linesFrom [tree.kind] tree.byteLen rest := by
  have hbody : linesFrom [tree.kind] 0 ((Node.top tree).parts.flatMap Part.events ++ rest) =
      ((Node.top tree).parts.flatMap Node.partTour).map WalkEvent.built ++
        linesFrom [tree.kind] (0 + tree.byteLen) rest :=
    linesFrom_body (show (Node.top tree).tree.LaidOut from hlaid) [] rest
  have hparts := (Node.top tree).events_eq_parts
  rw [Node.tree_top, hevents] at hparts
  obtain ⟨rfl, -⟩ := List.append_inj' hparts rfl
  rw [Node.tour_eq_parts, List.dropLast_concat, List.cons_append, linesFrom, Node.kind,
    Node.tree_top, hbody, Nat.zero_add]
  rfl

theorem linesFrom_events {tree : Tree} (hlaid : tree.LaidOut) :
    linesFrom [] 0 tree.events = ((Node.top tree).tour fun _ => false).map WalkEvent.built := by
  have hroot := linesFrom_root hlaid tree.events_eq [.close]
  rw [← tree.events_eq] at hroot
  rw [hroot, Node.tour_eq_parts, List.dropLast_concat]
  simp [linesFrom, WalkEvent.built, Node.parent?, Node.kind, Node.byteLen, Node.offset]

/-! ### The trace of building a tree -/

/-- One of the events closes the root: it comes when only the root is open. -/
def ClosesRoot (origin : Nat) (events : List Event) : Prop :=
  ∃ front back root, events = front ++ .close :: back ∧ (stateAfter origin front).stack = [root]

/-- The positions and the trace of building a tree, told by the finished tree. -/
structure Traced (origin : Nat) (events : List Event) (root : Node) : Prop where
  /-- When a node is started, the position is the offset of the node in the finished tree. -/
  started : ∀ front kind back, events = front ++ .start kind :: back →
    ∃ node, root.at? (stateAfter origin front).nextId.place = some node ∧
      node.tree.id = (stateAfter origin front).nextId ∧ node.kind = kind ∧
      (stateAfter origin front).position = node.offset ∧
      traceAfter origin (front ++ [.start kind]) =
        traceAfter origin front ++ [.opened kind node.offset]
  /-- When a node is closed, the position is the offset where the node ends in the finished tree. -/
  closed : ∀ front back, events = front ++ .close :: back →
    ∃ innermost outer node, (stateAfter origin front).stack = innermost :: outer ∧
      root.at? innermost.id.place = some node ∧ node.tree.id = innermost.id ∧
      node.kind = innermost.draft.kind ∧
      (stateAfter origin front).position = node.offset + node.byteLen ∧
      traceAfter origin (front ++ [.close]) = traceAfter origin front ++
        [if outer.isEmpty then .closedRoot node.kind (node.offset + node.byteLen)
          else .closed node.kind (node.offset + node.byteLen)]
  /-- A token leaves no line. -/
  pushed : ∀ front token back, events = front ++ .push token :: back →
    traceAfter origin (front ++ [.push token]) = traceAfter origin front
  /-- In the end the position is the length of the tree. -/
  position_eq : (stateAfter origin events).position = root.byteLen
  /-- The lines are those of a walk through the finished tree. -/
  trace_eq : ClosesRoot origin events →
    traceAfter origin events = root.walkEvents.map WalkEvent.built
  /-- If the root is left to be closed by finishing, only the last line of the walk is missing. -/
  trace_eq_dropLast : ¬ClosesRoot origin events →
    traceAfter origin events = root.walkEvents.dropLast.map WalkEvent.built
  /-- Only closing the root leaves a line about it. -/
  closedRoot_mem_iff : (∃ kind position, .closedRoot kind position ∈ traceAfter origin events) ↔
    ClosesRoot origin events

/-- A node is closed in a line with its kind and the position. -/
theorem Takes.exists_innermost (h : builder.Takes .close after lines) :
    ∃ innermost outer, builder.stack = innermost :: outer ∧
      lines = [if outer.isEmpty then .closedRoot innermost.draft.kind builder.position
        else .closed innermost.draft.kind builder.position] := by
  cases h with
  | @closeRoot root _ hstack => exact ⟨root, [], hstack, rfl⟩
  | @closeInner innermost parent outer _ hstack => exact ⟨innermost, parent :: outer, hstack, rfl⟩

section Traced

variable {origin : Nat} {tree : Tree}

/-- The root is closed exactly by an event that comes when only the root is open. -/
theorem Runs.closesRoot_iff (h : (new origin).Runs events after lines) :
    ClosesRoot origin events ↔ after.rootClosed = true := by
  constructor
  · rintro ⟨front, back, root, rfl, hstack⟩
    obtain ⟨next, written, lines', -, htakes, hrest, -⟩ := h.exists_takes
    have hnext : next.rootClosed = true := by
      cases htakes with
      | closeRoot _ _ => rfl
      | closeInner _ hstack' => cases hstack.symm.trans hstack'
    -- Nothing is taken once the root is closed.
    cases hrest with
    | nil => exact hnext
    | cons hlater _ => exact absurd (hnext.symm.trans hlater.rootClosed_eq) (by decide)
  · intro hclosed
    rcases List.eq_nil_or_concat events with rfl | ⟨front, last, rfl⟩
    · cases h
      cases hclosed
    · rw [List.concat_eq_append] at h ⊢
      obtain ⟨next, written, lines', -, htakes, hrest, -⟩ := h.exists_takes
      cases hrest with
      | nil =>
        cases htakes with
        | start _ hopen => cases hopen.symm.trans hclosed
        | push _ hopen _ _ => cases hopen.symm.trans hclosed
        | closeRoot _ hstack => exact ⟨front, [], _, rfl, hstack⟩
        | closeInner hopen _ => cases hopen.symm.trans hclosed

namespace Finishes

/-- The trace of a run that has closed the root. -/
theorem trace_eq (h : Finishes origin events tree)
    (hclosed : (stateAfter origin events).rootClosed = true) :
    traceAfter origin events = (Node.top tree).walkEvents.map WalkEvent.built := by
  have hevents : tree.events = events := by simpa [hclosed] using h.events_eq
  rw [Walk.walkEvents_eq (.refl _), ← linesFrom_events h.laidOut, hevents]
  exact h.runs.lines_eq

/-- The trace of a run that has left the root open. -/
theorem trace_eq_dropLast (h : Finishes origin events tree)
    (hopen : (stateAfter origin events).rootClosed = false) :
    traceAfter origin events = (Node.top tree).walkEvents.dropLast.map WalkEvent.built := by
  have hevents : tree.events = events ++ [.close] := by simpa [hopen] using h.events_eq
  have hlines := linesFrom_root h.laidOut hevents []
  rw [List.append_nil, linesFrom, List.append_nil] at hlines
  rw [Walk.walkEvents_eq (.refl _), ← hlines]
  exact h.runs.lines_eq

/-- The line about the root is written only when the root is closed. -/
theorem closedRoot_mem_iff (h : Finishes origin events tree) :
    (∃ kind position, .closedRoot kind position ∈ traceAfter origin events) ↔
      (stateAfter origin events).rootClosed = true := by
  have htour := (Node.top tree).tour_eq_parts
  constructor
  · rintro ⟨kind, position, hmem⟩
    by_contra hopen
    rw [h.trace_eq_dropLast (Bool.eq_false_iff.2 hopen), Walk.walkEvents_eq (.refl _)] at hmem
    obtain ⟨event, hevent, hbuilt⟩ := List.mem_map.1 hmem
    obtain rfl := WalkEvent.eq_leave_of_built
      (Node.mem_tour_iff.1 (List.dropLast_subset _ hevent)) hbuilt
    -- The walk leaves the root at its end, and no event comes twice.
    have hnodup := (Node.top tree).nodup_tour
    rw [htour] at hevent hnodup
    rw [List.dropLast_concat] at hevent
    exact (List.nodup_append.1 hnodup).2.2 _ hevent _ (.head _) rfl
  · intro hclosed
    rw [h.trace_eq hclosed, Walk.walkEvents_eq (.refl _), htour]
    exact ⟨tree.kind, 0 + tree.byteLen,
      List.mem_map.2 ⟨.leave (.top tree), by simp, rfl⟩⟩

end Finishes

/-- **Positions and trace agree with the finished tree.** If a stream is built, a node is started at
the position that is its offset in the finished tree and closed at the position where it ends there,
and these positions are what the trace shows; in the end the position is the length of the tree. The
trace has the lines of these events one after the other and no others, as a walk through the finished
tree comes to them, and it tells that the root was closed exactly if this was not left to
finishing. -/
theorem traced_of_build {root : Node} (h : build origin events = .ok root) :
    Traced origin events root := by
  obtain ⟨tree, rfl, hfinishes⟩ := exists_finishes_of_build h
  have hcloses := hfinishes.runs.closesRoot_iff
  refine ⟨?_, ?_, ?_, hfinishes.position_eq, fun hclosed => hfinishes.trace_eq (hcloses.1 hclosed),
    fun hopen => hfinishes.trace_eq_dropLast ?_, hfinishes.closedRoot_mem_iff.trans hcloses.symm⟩
  · rintro front kind back rfl
    obtain ⟨node, hat, hid, hkind, hposition⟩ := hfinishes.exists_started
    obtain ⟨next, written, lines', -, htakes, -, htrace⟩ := hfinishes.runs.exists_takes
    cases htakes
    exact ⟨node, hat, hid, hkind, hposition, by rw [htrace, hposition]⟩
  · rintro front back rfl
    obtain ⟨next, written, lines', -, htakes, -, htrace⟩ := hfinishes.runs.exists_takes
    obtain ⟨innermost, outer, hstack, rfl⟩ := htakes.exists_innermost
    obtain ⟨node, hat, hid, hkind, hposition⟩ := hfinishes.exists_closed hstack
    exact ⟨innermost, outer, node, hstack, hat, hid, hkind, hposition,
      by rw [htrace, hkind, hposition]⟩
  · rintro front token back rfl
    obtain ⟨next, written, lines', -, htakes, -, htrace⟩ := hfinishes.runs.exists_takes
    cases htakes
    rw [htrace, List.append_nil]
  · exact Bool.eq_false_iff.2 fun hclosed => hopen (hcloses.2 hclosed)

end Traced

/-- The trace of building `ü .x`, whose first variable has three bytes; and the position before the
second variable, if the root is left to be closed by finishing. -/
theorem traced_dotted :
    build 0 Forest.dottedTree.events = .ok (.top Forest.dottedTree) ∧
    (traceAfter 0 Forest.dottedTree.events).map TraceLine.message =
      ["start Lvalue at 0", "start IdentifierVariable at 0", "end IdentifierVariable at 3",
        "start IdentifierVariable at 4", "end IdentifierVariable at 5", "end root Lvalue at 5"] ∧
    build 0 Forest.dottedTree.events.dropLast = .ok (.top Forest.dottedTree) ∧
    ∃ node, (Node.top Forest.dottedTree).at? [2] = some node ∧
      (stateAfter 0 (Forest.dottedTree.events.take 5)).position = node.offset := by
  have hclosed : build 0 Forest.dottedTree.events = .ok (.top Forest.dottedTree) := rfl
  have hopen : build 0 Forest.dottedTree.events.dropLast = .ok (.top Forest.dottedTree) := rfl
  refine ⟨hclosed, ?_, hopen, ?_⟩
  · have hcloses : ClosesRoot 0 Forest.dottedTree.events :=
      ⟨Forest.dottedTree.events.dropLast, [], _, rfl, rfl⟩
    rw [(traced_of_build hclosed).trace_eq hcloses, Walk.walkEvents_eq (.refl _)]
    decide
  · obtain ⟨node, hat, -, -, hposition, -⟩ :=
      (traced_of_build hopen).started (Forest.dottedTree.events.take 5) .identifierVariable
        [.push (.identifier "x"), .close] rfl
    exact ⟨node, hat, hposition⟩

end Builder

end LosslessTree
