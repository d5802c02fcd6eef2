import Mathlib.Data.List.Nodup
import LosslessTree.Proofs.Forest
import LosslessTree.Proofs.Walk.Pruned

/-!
# Walks follow tours

A walk knows the event that is due and nothing else: it finds the way down, sideways and up again by
looking around in the tree, and it ends when it leaves the node at which it started. The tour of a
subtree is the recursive traversal: a node is entered, the tours of the nodes below it follow, and
it is left. The two agree, also if subtrees are skipped on the way, and although the nodes behind
the start are there to be walked into: a tour is the round of a walk that skips only after nodes
have been entered.

## Main definitions

* `WalkEvent.enters`: the events that enter one of the given nodes.
* `Node.tour`: the recursive traversal of a subtree.

## Main results

* `Node.round_enters`: tours are rounds.
* `Node.mem_tour_iff`, `Node.nodup_tour`: a tour without skips enters and leaves each node of the
  subtree once.
* `Forest.Holds.rest_walk_eq_tour`: walks follow tours.
-/

namespace LosslessTree

/-- Whether an event enters one of the given nodes. -/
def WalkEvent.enters (nodes : Node → Bool) : WalkEvent → Bool
  | enter n => nodes n
  | leave _ => false

instance : ReflBEq WalkEvent where
  rfl {event} := by
    cases event with
    | enter node => exact node.same_self
    | leave node => exact node.same_self

/-! ### Tours -/

namespace Node

/-- The tour found below a node; a token has none. -/
def tourOf : Branch (List WalkEvent) → List WalkEvent
  | .leaf _ => []
  | .node _ tour => tour ()

/-- The recursive traversal of a subtree: a node is entered, the tours of its children follow unless
they are to be skipped, and the node is left. -/
def tour (skip : Node → Bool) (node : Node) : List WalkEvent :=
  node.fold fun here branches =>
    .enter here :: (if skip here then [] else branches.flatMap tourOf) ++ [.leave here]

theorem tour_eq (skip : Node → Bool) (node : Node) :
    node.tour skip =
      .enter node :: (if skip node then [] else node.children.flatMap (tour skip)) ++
        [.leave node] := by
  have hparts (parts : List Part) : (parts.map (Part.branch (tour skip))).flatMap tourOf =
      (parts.filterMap Part.node?).flatMap (tour skip) := by
    induction parts with
    | nil => rfl
    | cons part rest ih =>
      rw [List.map_cons, List.flatMap_cons, ih]
      cases part <;> rfl
  have hchildren := hparts node.parts
  unfold tour at hchildren ⊢
  rw [fold_eq, hchildren]
  rfl

variable {start node : Node}

/-- A tour stays in the subtree, and without skips it comes to every node of it. -/
theorem mem_tour_iff {event : WalkEvent} :
    event ∈ node.tour (fun _ => false) ↔ node.Within event.node := by
  induction node using Node.induction with
  | step node ih =>
    have hcases : node.Within event.node ↔
        node = event.node ∨ ∃ child ∈ node.children, child.Within event.node :=
      Relation.ReflTransGen.cases_head_iff
    have hbelow : event ∈ node.children.flatMap (tour fun _ => false) ↔
        ∃ child ∈ node.children, child.Within event.node := by
      rw [List.mem_flatMap]
      exact exists_congr fun child => and_congr_right fun hchild => ih child hchild
    rw [tour_eq, hcases, ← hbelow]
    cases event <;> simp [WalkEvent.node, eq_comm, or_comm]

/-- Events at nodes of one tree are the same exactly if they are equal. -/
theorem Within.eq_of_event_beq {tree : Tree} {event other : WalkEvent}
    (h : (top tree).Within event.node) (hother : (top tree).Within other.node)
    (hsame : (event == other) = true) : event = other := by
  cases event with
  | enter a =>
    cases other with
    | enter b => exact congrArg WalkEvent.enter ((h.beq_iff_eq hother).1 hsame)
    | leave b => cases hsame
  | leave a =>
    cases other with
    | enter b => cases hsame
    | leave b => exact congrArg WalkEvent.leave ((h.beq_iff_eq hother).1 hsame)

/-- A tour without skips has no event twice. -/
theorem nodup_tour (node : Node) : (node.tour fun _ => false).Nodup := by
  induction node using Node.induction with
  | step node ih =>
    have hnot (event : WalkEvent) (hevent : event.node = node) :
        event ∉ node.children.flatMap (tour fun _ => false) := by
      intro hmem
      obtain ⟨child, hchild, htour⟩ := List.mem_flatMap.1 hmem
      exact Within.ne_of_mem_children hchild (mem_tour_iff.1 htour) hevent.symm
    have hbelow : (node.children.flatMap (tour fun _ => false)).Nodup := by
      refine List.nodup_flatMap.2 ⟨fun child hchild => ih child hchild, ?_⟩
      refine node.pairwise_index_children.imp_of_mem fun {child other} hchild hother hindex => ?_
      intro event hevent hevent'
      exact Within.ne_of_index_ne hother hchild hindex (mem_tour_iff.1 hevent')
        (mem_tour_iff.1 hevent) rfl
    rw [tour_eq, if_neg Bool.false_ne_true, List.cons_append, List.nodup_cons]
    constructor
    · intro hmem
      rcases List.mem_append.1 hmem with hmem | hleave
      · exact hnot _ rfl hmem
      · cases List.mem_singleton.1 hleave
    · refine hbelow.append (List.nodup_singleton _) fun event hmem hleave => ?_
      cases List.mem_singleton.1 hleave
      exact hnot _ rfl hmem

end Node

/-! ### Walks -/

/-- A walk that skips only after nodes have been entered comes to all children of the others. -/
theorem Node.round_enters (skip : Node → Bool) (node : Node) :
    node.round (WalkEvent.enters skip) = node.tour skip := by
  induction node using Node.induction with
  | step node ih =>
    have hall : upTo (fun child => WalkEvent.enters skip (.leave child)) node.children =
        node.children := upTo_eq_self fun _ _ => rfl
    have hvisited : node.visited (WalkEvent.enters skip) =
        if skip node then [] else node.children := by
      rw [visited, hall]
      rfl
    rw [round_eq, tour_eq, hvisited]
    split
    · rfl
    · rw [List.flatMap_congr ih]

namespace Walk

variable {start : Node}

/-- A walk follows the tour of its start and ends there, whatever stands behind the start. -/
theorem rest_walk {tree : Tree} (hstart : (Node.top tree).Within start) (skip : Node → Bool) :
    (start.walk.rest (WalkEvent.enters skip)).1 = start.tour skip := by
  rw [rest_walk_eq_round hstart, Node.round_enters]

theorem walkEvents_eq {tree : Tree} (hstart : (Node.top tree).Within start) :
    start.walkEvents = start.tour fun _ => false := by
  have hnone : (fun _ => false) = WalkEvent.enters fun _ => false := by
    funext event
    cases event <;> rfl
  rw [Node.walkEvents, hnone, rest_walk hstart]

end Walk

/-- **Walks follow tours.** A walk from any node that a run holds, with the subtrees of any nodes
skipped when they are entered, gives the events of the recursive traversal. Without skips it enters
and leaves every node of the subtree and no other node, and no event comes twice. -/
theorem Forest.Holds.rest_walk_eq_tour {forest : Forest} {start : Node}
    (hstart : forest.Holds start) :
    (∀ skip : Node → Bool, (start.walk.rest (WalkEvent.enters skip)).1 = start.tour skip) ∧
    (∀ event, event ∈ start.walkEvents ↔ start.Within event.node) ∧
    start.walkEvents.Pairwise fun event other => (event == other) = false := by
  obtain ⟨tree, -, hwithin⟩ := hstart
  rw [Walk.walkEvents_eq hwithin]
  refine ⟨Walk.rest_walk hwithin, fun event => Node.mem_tour_iff, ?_⟩
  refine start.nodup_tour.imp_of_mem fun {event other} hevent hother hne => ?_
  have hin := hwithin.trans (Node.mem_tour_iff.1 hevent)
  have hin' := hwithin.trans (Node.mem_tour_iff.1 hother)
  exact Bool.eq_false_iff.2 fun hsame => hne (hin.eq_of_event_beq hin' hsame)

namespace Forest

/-- The tree of an lvalue that is a variable. -/
def lvalueTree : Tree :=
  ⟨⟨0, [0]⟩, .lvalue, 1,
    [.node 0 ⟨⟨0, [0, 0]⟩, .identifierVariable, 1, [.token 0 ⟨0, [0, 0, 0]⟩ (.identifier "x")]⟩]⟩

/-- The tree of the assignment `x=y`. -/
def assignmentTree : Tree :=
  ⟨⟨0, []⟩, .assignStatement, 3,
    [.node 0 lvalueTree, .token 1 ⟨0, [1]⟩ (.punctuation .equals),
      .node 2 ⟨⟨0, [2]⟩, .identifierVariable, 1, [.token 0 ⟨0, [2, 0]⟩ (.identifier "y")]⟩]⟩

/-- The left-hand side of the assignment `x=y`, which has a sibling behind it. -/
def leftSide : Node :=
  .inner (.top assignmentTree) 0 0 lvalueTree

theorem reachable_assignment : (empty.add 0 assignmentTree).Reachable :=
  reachable_of_build rfl

theorem holds_leftSide : (empty.add 0 assignmentTree).Holds leftSide :=
  ⟨assignmentTree, .head _, .of_mem_children (.head _)⟩

/-- The left-hand side of an assignment is walked through alone, with and without what is below. -/
theorem rest_walk_leftSide :
    (empty.add 0 assignmentTree).Reachable ∧ (empty.add 0 assignmentTree).Holds leftSide ∧
    ((leftSide.walk.rest (WalkEvent.enters fun _ => false)).1.map fun event =>
      event.node.path) = [[0], [0, 0], [0, 0], [0]] ∧
    (leftSide.walk.rest (WalkEvent.enters fun node => node.kind = .lvalue)).1 =
      [.enter leftSide, .leave leftSide] := by
  have htour := holds_leftSide.rest_walk_eq_tour.1
  refine ⟨reachable_assignment, holds_leftSide, ?_, htour _⟩
  rw [htour]
  rfl

end Forest

end LosslessTree
