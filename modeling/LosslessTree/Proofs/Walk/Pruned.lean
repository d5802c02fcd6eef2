import LosslessTree.Proofs.Navigation
import LosslessTree.Walk

/-!
# Walks that skip

A walk can be told to skip after any of its events. After a node has been entered, a skip leaves out
all that is below it. After a child has been left, a skip leaves out the children behind it. So the
children that a walk comes to are the first few, and the walk is a recursive traversal through them:
its round.

The argument is one invariant. When a node of the subtree is about to be entered, what is left of
the walk is the round of that node, followed by what is left once the node has been left.

## Main definitions

* `Node.visited`: the children of a node that a walk comes to.
* `Node.round`: the recursive traversal of a subtree through these children.
* `Walk.eventsLeft`: the events that are left when a given event is due.

## Main results

* `Walk.following?_enter`, `Walk.following?_leave`: what follows an event, whether the walk is told
  to skip or not.
* `Walk.eventsLeft_enter`: what is left of a walk when a node is about to be entered.
* `Walk.rest_walk_eq_round`: walks follow rounds.
-/

namespace LosslessTree

/-! ### Rounds -/

namespace Node

variable {stop : Node → Bool} {node : Node}

/-- The nodes up to the first one at which to stop, which is the last one. -/
def upTo (stop : Node → Bool) : List Node → List Node
  | [] => []
  | node :: rest => node :: if stop node then [] else upTo stop rest

theorem head?_upTo (stop : Node → Bool) (nodes : List Node) :
    (upTo stop nodes).head? = nodes.head? := by
  cases nodes <;> rfl

theorem upTo_eq_self {nodes : List Node} (h : ∀ node ∈ nodes, stop node = false) :
    upTo stop nodes = nodes := by
  induction nodes with
  | nil => rfl
  | cons node rest ih =>
    rw [upTo, h node (.head _), if_neg Bool.false_ne_true,
      ih fun other hother => h other (.tail _ hother)]

theorem upTo_prefix_self (stop : Node → Bool) (nodes : List Node) : upTo stop nodes <+: nodes := by
  induction nodes with
  | nil => exact List.nil_prefix
  | cons node rest ih =>
    rw [upTo, List.cons_prefix_cons]
    refine ⟨rfl, ?_⟩
    split
    · exact List.nil_prefix
    · exact ih

/-- **Around one of the first nodes**: what stands before it is the same, and behind it nothing is
left if one is to stop there. -/
theorem exists_of_upTo_eq {nodes front back : List Node}
    (h : upTo stop nodes = front ++ node :: back) :
    ∃ rest, nodes = front ++ node :: rest ∧ back = if stop node then [] else upTo stop rest := by
  induction nodes generalizing front with
  | nil => simp [upTo] at h
  | cons first rest ih =>
    rw [upTo] at h
    cases front with
    | nil =>
      cases h
      exact ⟨rest, rfl, rfl⟩
    | cons other front =>
      obtain ⟨rfl, htail⟩ := List.cons.inj h
      split at htail
      · simp at htail
      · obtain ⟨behind, rfl, hback⟩ := ih htail
        exact ⟨behind, rfl, hback⟩

/-- The children of a node that a walk comes to if it skips after the given events. -/
def visited (skipAfter : WalkEvent → Bool) (node : Node) : List Node :=
  if skipAfter (.enter node) then []
  else upTo (fun child => skipAfter (.leave child)) node.children

/-- A walk comes to the first few children. -/
theorem visited_prefix_children (skipAfter : WalkEvent → Bool) (node : Node) :
    node.visited skipAfter <+: node.children := by
  rw [visited]
  split
  · exact List.nil_prefix
  · exact upTo_prefix_self _ _

theorem mem_children_of_mem_visited {skipAfter : WalkEvent → Bool} {child : Node}
    (h : child ∈ node.visited skipAfter) : child ∈ node.children :=
  (node.visited_prefix_children skipAfter).subset h

theorem exists_of_visited_eq {skipAfter : WalkEvent → Bool} {child : Node} {front back : List Node}
    (h : node.visited skipAfter = front ++ child :: back) :
    ∃ rest, node.children = front ++ child :: rest ∧
      back.head? = if skipAfter (.leave child) then none else rest.head? := by
  unfold visited at h
  split at h
  · simp at h
  · obtain ⟨rest, hchildren, rfl⟩ := exists_of_upTo_eq h
    refine ⟨rest, hchildren, ?_⟩
    split
    · rfl
    · exact head?_upTo _ rest

/-- The rounds found below a node, up to the first child at which to stop; tokens have none. -/
def roundsOf (stop : Node → Bool) : List (Branch (List WalkEvent)) → List WalkEvent
  | [] => []
  | .leaf _ :: rest => roundsOf stop rest
  | .node child round :: rest => round () ++ if stop child then [] else roundsOf stop rest

/-- The recursive traversal of a subtree by a walk that skips after the given events: a node is
entered, the rounds of the children that the walk comes to follow, and the node is left. -/
def round (skipAfter : WalkEvent → Bool) (node : Node) : List WalkEvent :=
  node.fold fun here branches =>
    .enter here :: (if skipAfter (.enter here) then []
      else roundsOf (fun child => skipAfter (.leave child)) branches) ++ [.leave here]

theorem round_eq (skipAfter : WalkEvent → Bool) (node : Node) :
    node.round skipAfter =
      .enter node :: (node.visited skipAfter).flatMap (round skipAfter) ++ [.leave node] := by
  have hparts (stop : Node → Bool) (parts : List Part) :
      roundsOf stop (parts.map (Part.branch (round skipAfter))) =
        (upTo stop (parts.filterMap Part.node?)).flatMap (round skipAfter) := by
    induction parts with
    | nil => rfl
    | cons part rest ih =>
      cases part with
      | leaf leaf => exact ih
      | node child =>
        change round skipAfter child ++ (if stop child then [] else roundsOf stop _) = _
        rw [ih]
        change _ = round skipAfter child ++ List.flatMap _ (if stop child then [] else _)
        split <;> rfl
  have hbelow := hparts (fun child => skipAfter (.leave child)) node.parts
  unfold round at hbelow ⊢
  rw [fold_eq, hbelow, visited]
  split <;> rfl

end Node

/-! ### What is left of a walk -/

namespace Walk

variable {start node : Node} {skipAfter : WalkEvent → Bool}

/-- The event after entering a node enters its first child, or leaves the node. -/
theorem successor?_enter (start node : Node) :
    start.walk.successor? (.enter node) =
      some ((node.children.head?.map WalkEvent.enter).getD (.leave node)) := by
  rw [successor?, Node.firstChild?]
  cases node.children.head? <;> rfl

/-- The event after leaving a child enters the next child, or leaves the parent. -/
theorem successor?_leave_child {tree : Tree} (hstart : (Node.top tree).Within start)
    (h : start.Within node) {child : Node} {front back : List Node}
    (hchildren : node.children = front ++ child :: back) :
    start.walk.successor? (.leave child) =
      some ((back.head?.map WalkEvent.enter).getD (.leave node)) := by
  have hchild : child ∈ node.children := by
    rw [hchildren]
    exact List.mem_append_right _ (.head _)
  have hne : child ≠ start := by
    rintro rfl
    exact Node.Within.not_parent hchild h
  have hother : ¬(child == start) = true := fun hsame =>
    hne (((hstart.trans (h.tail hchild)).beq_iff_eq hstart).1 hsame)
  change (if child == start then _ else _) = _
  rw [if_neg hother, Node.nextSibling?_of_children_eq hchildren,
    Node.parent?_of_mem_children hchild]
  cases back.head? <;> rfl

/-- A skip makes a walk that is about to enter one of some children of a node, or to leave the node,
leave it. -/
theorem skipped?_of_mem_children {children : List Node}
    (h : ∀ child ∈ children, child ∈ node.children) :
    ((children.head?.map WalkEvent.enter).getD (.leave node)).skipped? = some (.leave node) := by
  cases hhead : children.head? with
  | none => rfl
  | some child =>
    have hparent := Node.parent?_of_mem_children (h child (List.mem_of_head? hhead))
    exact congrArg (Option.map WalkEvent.leave) hparent

/-- The event that follows an event of a walk from `start`, after which it is told to skip or
not. -/
def following? (start : Node) (skipAfter : WalkEvent → Bool) (event : WalkEvent) :
    Option WalkEvent :=
  if skipAfter event then (start.walk.successor? event).bind WalkEvent.skipped?
  else start.walk.successor? event

/-- After a node has been entered, the first child that the walk comes to is entered, or the node is
left. -/
theorem following?_enter (start : Node) (skipAfter : WalkEvent → Bool) (node : Node) :
    following? start skipAfter (.enter node) =
      some (((node.visited skipAfter).head?.map WalkEvent.enter).getD (.leave node)) := by
  rw [following?, successor?_enter, Node.visited]
  split
  · exact skipped?_of_mem_children fun _ hchild => hchild
  · rw [Node.head?_upTo]

/-- After a child has been left, the next child that the walk comes to is entered, or the parent is
left. -/
theorem following?_leave {tree : Tree} (hstart : (Node.top tree).Within start)
    (h : start.Within node) {child : Node} {front back : List Node}
    (hvisited : node.visited skipAfter = front ++ child :: back) :
    following? start skipAfter (.leave child) =
      some ((back.head?.map WalkEvent.enter).getD (.leave node)) := by
  obtain ⟨rest, hchildren, hhead⟩ := Node.exists_of_visited_eq hvisited
  have hrest (other : Node) (hmem : other ∈ rest) : other ∈ node.children := by
    rw [hchildren]
    exact List.mem_append_right _ (.tail _ hmem)
  rw [following?, successor?_leave_child hstart h hchildren, hhead]
  split
  · exact skipped?_of_mem_children hrest
  · rfl

/-- The events that are left are told by the start and the event that is due. -/
theorem rest_congr {walk other : Walk} (hstart : walk.start = other.start)
    (hdue : walk.due? = other.due?) : walk.rest skipAfter = other.rest skipAfter := by
  have hsucc : walk.successor? = other.successor? := by
    funext event
    cases event <;> simp only [successor?, hstart]
  have hnext : walk.next.2 = other.next.2 := by
    simp only [next, hdue, hstart, hsucc]
  cases hevent : other.due? with
  | none =>
    rw [rest_of_due?_eq_none skipAfter hevent, rest_of_due?_eq_none skipAfter (hdue.trans hevent),
      hnext]
  | some event =>
    rw [rest_of_due?_eq_some skipAfter hevent, rest_of_due?_eq_some skipAfter (hdue.trans hevent),
      advance, advance, hnext]

/-- The events that are left of a walk from `start` when the given event is due, skipping after the
given events. -/
def eventsLeft (start : Node) (skipAfter : WalkEvent → Bool) (pending : Option WalkEvent) :
    List WalkEvent :=
  ((⟨start, pending, false⟩ : Walk).rest skipAfter).1

theorem eventsLeft_none : eventsLeft start skipAfter none = [] := by
  rw [eventsLeft, rest_of_due?_eq_none]
  rfl

theorem eventsLeft_some (event : WalkEvent) :
    eventsLeft start skipAfter (some event) =
      event :: eventsLeft start skipAfter (following? start skipAfter event) := by
  rw [eventsLeft, rest_of_due?_eq_some _ rfl]
  refine congrArg (fun left => event :: left) (congrArg Prod.fst (rest_congr ?_ ?_))
  · rw [advance]
    split <;> rfl
  · rw [advance, following?]
    split <;> rfl

/-- The loop over the children that the walk comes to: from some child on, their rounds follow one
another, and then the node is left. -/
theorem eventsLeft_visited {tree : Tree} (hstart : (Node.top tree).Within start)
    (h : start.Within node) (front back : List Node)
    (hvisited : node.visited skipAfter = front ++ back)
    (hrounds : ∀ child ∈ back, eventsLeft start skipAfter (some (.enter child)) =
      child.round skipAfter ++
        eventsLeft start skipAfter (following? start skipAfter (.leave child))) :
    eventsLeft start skipAfter (some ((back.head?.map WalkEvent.enter).getD (.leave node))) =
      back.flatMap (Node.round skipAfter) ++ eventsLeft start skipAfter (some (.leave node)) := by
  induction back generalizing front with
  | nil => rfl
  | cons child rest ih =>
    have hrest := ih (front ++ [child]) (by simpa using hvisited)
      fun other hother => hrounds other (.tail _ hother)
    rw [← following?_leave hstart h hvisited] at hrest
    change eventsLeft start skipAfter (some (.enter child)) = _
    rw [hrounds child (.head _), hrest, List.flatMap_cons, List.append_assoc]

/-- **What is left when a node is about to be entered** is the round of the node, followed by what
is left once the node has been left. -/
theorem eventsLeft_enter {tree : Tree} (hstart : (Node.top tree).Within start)
    (h : start.Within node) :
    eventsLeft start skipAfter (some (.enter node)) =
      node.round skipAfter ++
        eventsLeft start skipAfter (following? start skipAfter (.leave node)) := by
  induction node using Node.induction with
  | step node ih =>
    have hbelow := eventsLeft_visited hstart h [] (node.visited skipAfter) rfl
      fun child hvisited =>
        have hchild := Node.mem_children_of_mem_visited hvisited
        ih child hchild (h.tail hchild)
    rw [eventsLeft_some, following?_enter, hbelow, eventsLeft_some, Node.round_eq]
    simp

/-- **Walks follow rounds.** A walk goes through the children that it comes to and ends where it
started, whatever stands behind the start. -/
theorem rest_walk_eq_round {tree : Tree} (hstart : (Node.top tree).Within start)
    (skipAfter : WalkEvent → Bool) :
    (start.walk.rest skipAfter).1 = start.round skipAfter := by
  have hend : start.walk.successor? (.leave start) = none := if_pos start.same_self
  have hfollowing : following? start skipAfter (.leave start) = none := by
    rw [following?, hend]
    split <;> rfl
  have hall : eventsLeft start skipAfter (some (.enter start)) = _ :=
    eventsLeft_enter hstart (.refl start)
  rw [hfollowing, eventsLeft_none, List.append_nil] at hall
  exact hall

end Walk

end LosslessTree
