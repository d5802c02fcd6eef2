import LosslessTree.Node.Identity

/-!
# Walking through a tree

A walk produces the nodes of a subtree one event at a time, in textual order: a node is entered,
the nodes below it follow, and it is left again. It knows only the event that is due next and finds
the one after it by looking around in the tree, so it takes no memory for the way back up.

Between two events the walk can be told not to go on below the node it entered last. The request
takes effect when the next event is asked for, whatever that event is: an event that enters a node
is exchanged for the one that leaves its parent. Before the first event this leads out of the
subtree.

## Main definitions

* `WalkEvent`: a node is entered or left.
* `Walk`, `Node.walk`: the state of a walk, and the walk that starts at a node.
* `Walk.next`, `Walk.skipSubtree`: the two operations on a walk.
* `Walk.rest`: all events that are left.

## Main results

* `Walk.remaining_next`: a walk comes to an end.
* `Walk.rest_of_due?_eq_some`, `Walk.rest_of_due?_eq_none`: the events that are left, one by one.
-/

namespace LosslessTree

/-- An event of a walk. -/
inductive WalkEvent where
  | enter (node : Node)
  | leave (node : Node)

namespace WalkEvent

/-- The node that is entered or left. -/
def node : WalkEvent → Node
  | enter n => n
  | leave n => n

/-- Whether two events are one event at one node. -/
def same : WalkEvent → WalkEvent → Bool
  | enter a, enter b => a == b
  | leave a, leave b => a == b
  | _, _ => false

instance : BEq WalkEvent := ⟨same⟩

/-- The event that is due instead if a subtree is to be skipped. -/
def skipped? : WalkEvent → Option WalkEvent
  | enter n => n.parent?.map leave
  | leave n => some (leave n)

end WalkEvent

/-- The state of a walk. -/
structure Walk where
  /-- The node whose leaving ends the walk. -/
  start : Node
  /-- The event that is due next. -/
  pending : Option WalkEvent
  /-- Whether a subtree is to be skipped before the next event. -/
  skipping : Bool

/-- The walk through the subtree of a node. -/
def Node.walk (node : Node) : Walk :=
  { start := node, pending := some (.enter node), skipping := false }

namespace Walk

/-- Asks the walk not to go on below the node that was entered last. -/
def skipSubtree (walk : Walk) : Walk :=
  { walk with skipping := true }

/-- The event after a given one: the first node below, else the way out; from there the next node
beside, else the way out of the parent. -/
def successor? (walk : Walk) : WalkEvent → Option WalkEvent
  | .enter n =>
    match n.firstChild? with
    | some child => some (.enter child)
    | none => some (.leave n)
  | .leave n =>
    if n == walk.start then none
    else
      match n.nextSibling? with
      | some sibling => some (.enter sibling)
      | none => n.parent?.map .leave

/-- The event that the walk produces next. -/
def due? (walk : Walk) : Option WalkEvent :=
  if walk.skipping then walk.pending.bind WalkEvent.skipped? else walk.pending

/-- The next event, or none at the end, and the walk after it. -/
def next (walk : Walk) : Option WalkEvent × Walk :=
  (walk.due?, { walk with pending := walk.due?.bind walk.successor?, skipping := false })

/-! ### The events that are left -/

/-- The number of events that are left in the whole tree when a node has been left. -/
def eventsAfterLeaving : Node → Nat
  | .top _ => 0
  | .inner parent index _ _ =>
    2 * childrenNodeCount (parent.tree.children.drop (index + 1)) + 1 + eventsAfterLeaving parent

/-- The number of events that are left in the whole tree after an event. -/
def eventsAfter : WalkEvent → Nat
  | .enter n => 2 * childrenNodeCount n.tree.children + 1 + eventsAfterLeaving n
  | .leave n => eventsAfterLeaving n

theorem eventsAfterLeaving_parent {node parent : Node} (h : node.parent? = some parent) :
    eventsAfterLeaving parent < eventsAfterLeaving node := by
  cases node with
  | top => simp [Node.parent?] at h
  | inner p index offset tree =>
    obtain rfl : p = parent := by simpa [Node.parent?] using h
    simp only [eventsAfterLeaving]
    omega

/-- When a node below another one has been entered, all events from that node on are left but
one. -/
theorem eventsAfter_enter_child {node child : Node} {index : Nat}
    (h : node.parts[index]? = some (.node child)) :
    eventsAfter (.enter child) =
      2 * childrenNodeCount (node.tree.children.drop index) + eventsAfterLeaving node := by
  obtain ⟨offset, tree, hget, rfl⟩ := Node.exists_of_getElem?_parts h
  have hcount := childrenNodeCount_drop_of_node hget
  have htree := tree.nodeCount_eq
  simp only [eventsAfter, eventsAfterLeaving, Node.tree_inner]
  omega

theorem eventsAfter_successor? (walk : Walk) {event next : WalkEvent}
    (h : walk.successor? event = some next) : eventsAfter next < eventsAfter event := by
  cases event with
  | enter n =>
    simp only [successor?] at h
    split at h
    · rename_i child hchild
      obtain rfl := Option.some.inj h
      obtain ⟨index, hindex⟩ := Node.exists_of_mem_children (List.mem_of_head? hchild)
      have hle := childrenNodeCount_drop_le n.tree.children (Nat.zero_le index)
      rw [List.drop_zero] at hle
      rw [eventsAfter_enter_child hindex, eventsAfter]
      omega
    · obtain rfl := Option.some.inj h
      simp only [eventsAfter]
      omega
  | leave n =>
    simp only [successor?] at h
    split at h
    · simp at h
    · split at h
      · rename_i sibling hsibling
        obtain rfl := Option.some.inj h
        obtain ⟨parent, index, hparent, hlt, hindex⟩ := Node.exists_of_nextSibling? hsibling
        cases n with
        | top => simp [Node.parent?] at hparent
        | inner p i offset tree =>
          obtain rfl : p = parent := by simpa [Node.parent?] using hparent
          have hle := childrenNodeCount_drop_le p.tree.children (Nat.succ_le_of_lt hlt)
          rw [eventsAfter_enter_child hindex]
          simp only [eventsAfter, eventsAfterLeaving]
          simp only [Node.index, Nat.succ_eq_add_one] at hle
          omega
      · obtain ⟨parent, hparent, rfl⟩ := Option.map_eq_some_iff.1 h
        exact eventsAfterLeaving_parent hparent

theorem eventsAfter_skipped? {event next : WalkEvent} (h : event.skipped? = some next) :
    eventsAfter next ≤ eventsAfter event := by
  cases event with
  | enter n =>
    obtain ⟨parent, hparent, rfl⟩ := Option.map_eq_some_iff.1 h
    have hlt := eventsAfterLeaving_parent hparent
    simp only [eventsAfter]
    omega
  | leave n =>
    obtain rfl := Option.some.inj h
    exact Nat.le_refl _

/-- A bound on the number of events that are left. -/
def remaining (walk : Walk) : Nat :=
  match walk.pending with
  | some event => eventsAfter event + 1
  | none => 0

@[simp] theorem remaining_skipSubtree (walk : Walk) : walk.skipSubtree.remaining = walk.remaining :=
  rfl

/-- The event that is due is one of those that are left. -/
theorem eventsAfter_lt_remaining {walk : Walk} {event : WalkEvent} (h : walk.due? = some event) :
    eventsAfter event < walk.remaining := by
  unfold due? at h
  split at h
  · obtain ⟨pending, hpending, hskipped⟩ := Option.bind_eq_some_iff.1 h
    have := eventsAfter_skipped? hskipped
    simp only [remaining, hpending]
    omega
  · simp [remaining, h]

/-- After an event no more events are left of the walk than in the whole tree. -/
theorem remaining_next_le {walk : Walk} {event : WalkEvent} (h : walk.due? = some event) :
    walk.next.2.remaining ≤ eventsAfter event := by
  cases hs : walk.successor? event with
  | none => simp [next, h, hs, remaining]
  | some following =>
    have := eventsAfter_successor? walk hs
    simp only [next, h, Option.bind_some, hs, remaining]
    omega

/-- Each event brings the end of the walk nearer. -/
theorem remaining_next {walk : Walk} {event : WalkEvent} (h : walk.due? = some event) :
    walk.next.2.remaining < walk.remaining :=
  Nat.lt_of_le_of_lt (remaining_next_le h) (eventsAfter_lt_remaining h)

/-- The walk after an event, told to skip the subtree if `skipAfter` selects the event. -/
def advance (walk : Walk) (skipAfter : WalkEvent → Bool) (event : WalkEvent) : Walk :=
  if skipAfter event then walk.next.2.skipSubtree else walk.next.2

theorem remaining_advance {walk : Walk} {event : WalkEvent} (skipAfter : WalkEvent → Bool)
    (h : walk.due? = some event) : (walk.advance skipAfter event).remaining < walk.remaining := by
  unfold advance
  split
  · exact remaining_next h
  · exact remaining_next h

/-- The events `done`, followed by all events that are left; and the walk at its end. -/
def drain (skipAfter : WalkEvent → Bool) (done : Array WalkEvent) (walk : Walk) :
    Array WalkEvent × Walk :=
  match h : walk.due? with
  | none => (done, walk.next.2)
  | some event =>
    have := remaining_advance skipAfter h
    drain skipAfter (done.push event) (walk.advance skipAfter event)
termination_by walk.remaining

/-- All events that are left, skipping the subtree after each event that `skipAfter` selects, and
the walk at its end. -/
def rest (walk : Walk) (skipAfter : WalkEvent → Bool) : List WalkEvent × Walk :=
  let drained := walk.drain skipAfter #[]
  (drained.1.toList, drained.2)

theorem drain_of_due?_eq_none {walk : Walk} (skipAfter : WalkEvent → Bool)
    (done : Array WalkEvent) (h : walk.due? = none) :
    walk.drain skipAfter done = (done, walk.next.2) := by
  rw [drain]
  split <;> simp_all

theorem drain_of_due?_eq_some {walk : Walk} {event : WalkEvent} (skipAfter : WalkEvent → Bool)
    (done : Array WalkEvent) (h : walk.due? = some event) :
    walk.drain skipAfter done =
      (walk.advance skipAfter event).drain skipAfter (done.push event) := by
  rw [drain]
  split
  · simp_all
  · rename_i found hfound
    obtain rfl : event = found := Option.some.inj (h.symm.trans hfound)
    rfl

/-- The events before are kept in front. -/
theorem drain_eq_append (skipAfter : WalkEvent → Bool) (done : Array WalkEvent) (walk : Walk) :
    walk.drain skipAfter done =
      (done ++ (walk.drain skipAfter #[]).1, (walk.drain skipAfter #[]).2) := by
  cases h : walk.due? with
  | none => simp [drain_of_due?_eq_none skipAfter _ h]
  | some event =>
    rw [drain_of_due?_eq_some skipAfter done h, drain_of_due?_eq_some skipAfter #[] h,
      drain_eq_append skipAfter (done.push event) (walk.advance skipAfter event),
      drain_eq_append skipAfter (#[].push event) (walk.advance skipAfter event)]
    simp
termination_by walk.remaining
decreasing_by all_goals exact remaining_advance skipAfter h

theorem rest_of_due?_eq_none {walk : Walk} (skipAfter : WalkEvent → Bool)
    (h : walk.due? = none) : walk.rest skipAfter = ([], walk.next.2) := by
  simp [rest, drain_of_due?_eq_none skipAfter #[] h]

theorem rest_of_due?_eq_some {walk : Walk} {event : WalkEvent} (skipAfter : WalkEvent → Bool)
    (h : walk.due? = some event) :
    walk.rest skipAfter =
      (event :: ((walk.advance skipAfter event).rest skipAfter).1,
        ((walk.advance skipAfter event).rest skipAfter).2) := by
  simp only [rest, drain_of_due?_eq_some skipAfter #[] h]
  rw [drain_eq_append]
  simp

end Walk

/-- All events of the walk through the subtree of a node. -/
def Node.walkEvents (node : Node) : List WalkEvent :=
  (node.walk.rest fun _ => false).1

end LosslessTree
