import Mathlib.Data.List.Perm.Subperm
import Mathlib.Data.List.ReduceOption
import LosslessTree.Proofs.Reading

/-!
# Walks make progress

A walk goes down and up again and keeps no record of where it has been. A skip makes it jump, and a
skip before the first event makes it jump out of its subtree, where the node that is to end it is
not met any more. Still, each event stands behind the one before it in the tour of the whole tree:
the number of events that the tour has left after an event only falls. So no event comes twice, the
walk has no more events than the tour, and once it has come to its end it stays there.

## Main definitions

* `Walk.produced`: the events among the answers of a walk.
* `Node.placeInTour`: the place of an event in the tour of a whole tree.

## Main results

* `Walk.pairwise_eventsAfter_produced`: fewer events of the whole tree are left after each event.
* `Walk.exists_answers_eq`: once there is no event, there is none any more.
* `Node.Within.placeInTour_add`: the events that are left tell the place in the tour.
* `Forest.Holds.answers_ascend`: walks go forward in the tour of the whole tree.
-/

namespace LosslessTree

/-! ### Places in a tour -/

namespace Node

variable {node : Node} {tree : Tree}

theorem drop_parts (node : Node) (index : Nat) :
    node.parts.drop index = node.partsFrom index (node.tree.children.drop index) := by
  ext1 place
  rw [List.getElem?_drop, getElem?_parts, partsFrom, List.getElem?_map, List.getElem?_zipIdx,
    List.getElem?_drop, Option.map_map]
  rfl

/-- The tour of a part without skips; a token has none. -/
def partTour : Part → List WalkEvent :=
  Part.elim (tour fun _ => false) fun _ => []

/-- The tour of a node goes through its parts. -/
theorem tour_eq_parts (node : Node) :
    (node.tour fun _ => false) = .enter node :: node.parts.flatMap partTour ++ [.leave node] := by
  rw [tour_eq, if_neg Bool.false_ne_true, ← flatMap_parts]
  rfl

/-- The tours of children have two events for each of their nodes. -/
theorem length_flatMap_partTour (children : List Child) (index : Nat)
    (h : ∀ child, .node child ∈ node.partsFrom index children →
      (child.tour fun _ => false).length = 2 * child.tree.nodeCount) :
    ((node.partsFrom index children).flatMap partTour).length = 2 * childrenNodeCount children := by
  induction children generalizing index with
  | nil => rfl
  | cons child rest ih =>
    have hrest := ih (index + 1) fun child hmem => h child (.tail _ hmem)
    rw [partsFrom_cons, List.flatMap_cons, List.length_append, hrest]
    cases child with
    | token offset id token => exact Nat.zero_add _
    | node offset tree =>
      have htree := h (inner node index (node.offset + offset) tree) (.head _)
      rw [tree_inner] at htree
      rw [part, partTour, Part.elim, htree, childrenNodeCount]
      omega

theorem length_tour (node : Node) :
    (node.tour fun _ => false).length = 2 * node.tree.nodeCount := by
  induction node using Node.induction with
  | step node ih =>
    have hbelow := length_flatMap_partTour node.tree.children 0
      fun child hmem => ih child (mem_children.2 hmem)
    rw [← parts_eq_partsFrom] at hbelow
    rw [tour_eq_parts, List.length_append, List.length_cons, hbelow, Tree.nodeCount_eq]
    simp only [List.length_singleton]
    omega

/-- **What is left of the tour of the whole tree** behind the tour of a node. -/
theorem Within.exists_tour_eq (h : (top tree).Within node) :
    ∃ front back, ((top tree).tour fun _ => false) = front ++ (node.tour fun _ => false) ++ back ∧
      back.length = Walk.eventsAfterLeaving node := by
  induction h with
  | refl => exact ⟨[], [], by simp, rfl⟩
  | @tail parent child _ hchild ih =>
    obtain ⟨front, back, htour, hback⟩ := ih
    obtain ⟨index, hindex⟩ := exists_of_mem_children hchild
    have hparts : parent.parts.flatMap partTour =
        (parent.parts.take index).flatMap partTour ++ ((child.tour fun _ => false) ++
          (parent.parts.drop (index + 1)).flatMap partTour) := by
      conv_lhs => rw [parts_eq_append hindex, List.flatMap_append, List.flatMap_cons]
      rfl
    have hlength : ((parent.parts.drop (index + 1)).flatMap partTour).length =
        2 * childrenNodeCount (parent.tree.children.drop (index + 1)) := by
      rw [drop_parts]
      exact length_flatMap_partTour _ _ fun other _ => other.length_tour
    refine ⟨front ++ .enter parent :: (parent.parts.take index).flatMap partTour,
      (parent.parts.drop (index + 1)).flatMap partTour ++ .leave parent :: back, ?_, ?_⟩
    · rw [htour, tour_eq_parts, hparts]
      simp only [List.append_assoc, List.cons_append, List.nil_append]
    · obtain ⟨offset, sub, -, rfl⟩ := exists_of_getElem?_parts hindex
      rw [List.length_append, List.length_cons, hlength, hback, Walk.eventsAfterLeaving]
      omega

/-- The tour of the whole tree around one of its events. -/
theorem Within.exists_tour_eq_cons {event : WalkEvent} (h : (top tree).Within event.node) :
    ∃ front back, ((top tree).tour fun _ => false) = front ++ event :: back ∧
      back.length = Walk.eventsAfter event := by
  obtain ⟨front, back, htour, hback⟩ := h.exists_tour_eq
  have hlength := event.node.length_tour
  rw [tour_eq_parts event.node] at htour hlength
  cases event with
  | enter n =>
    refine ⟨front, n.parts.flatMap partTour ++ .leave n :: back, ?_, ?_⟩
    · simpa [WalkEvent.node] using htour
    · simp only [WalkEvent.node, List.length_append, List.length_cons, List.length_nil,
        Tree.nodeCount_eq] at hlength hback ⊢
      rw [hback, Walk.eventsAfter]
      omega
  | leave n =>
    refine ⟨front ++ .enter n :: n.parts.flatMap partTour, back, ?_, hback⟩
    simpa [WalkEvent.node] using htour

/-- The place of an event in the tour of a whole tree: that of the first event that is the same. -/
def placeInTour (root : Node) (event : WalkEvent) : Nat :=
  (root.tour fun _ => false).findIdx (· == event)

/-- **The events that are left tell the place in the tour.** -/
theorem Within.placeInTour_add {event : WalkEvent} (h : (top tree).Within event.node) :
    (top tree).placeInTour event + Walk.eventsAfter event + 1 = 2 * tree.nodeCount := by
  obtain ⟨front, back, htour, hback⟩ := h.exists_tour_eq_cons
  have hnodup := (top tree).nodup_tour
  have hlength := (top tree).length_tour
  rw [htour] at hnodup hlength
  have hfront (other : WalkEvent) (hother : other ∈ front) : (other == event) = false := by
    refine Bool.eq_false_iff.2 fun hsame => ?_
    have hmem : other ∈ (top tree).tour fun _ => false := by
      rw [htour]
      exact List.mem_append_left _ hother
    obtain rfl := (mem_tour_iff.1 hmem).eq_of_event_beq h hsame
    exact (List.nodup_append.1 hnodup).2.2 other hother other (.head _) rfl
  have hplace : (top tree).placeInTour event = front.length := by
    rw [placeInTour, htour, List.findIdx_append, List.findIdx_eq_length.2 hfront]
    simp [List.findIdx_cons]
  rw [List.length_append, List.length_cons, hback] at hlength
  rw [hplace, Nat.add_assoc]
  exact hlength

end Node

/-! ### The events of a walk -/

namespace Walk

variable {walk : Walk} {tree : Tree}

/-- The events among the answers of a walk. -/
def produced (walk : Walk) (script : List Request) : List WalkEvent :=
  (walk.answers script).reduceOption

theorem mem_produced_iff {script : List Request} {event : WalkEvent} :
    event ∈ walk.produced script ↔ some event ∈ walk.answers script :=
  List.reduceOption_mem_iff

theorem produced_next_of_some (script : List Request) {event : WalkEvent}
    (h : walk.due? = some event) :
    walk.produced (.next :: script) = event :: walk.next.2.produced script := by
  rw [produced, answers, next, h, List.reduceOption_cons_of_some]
  rfl

theorem produced_next_of_none (script : List Request) (h : walk.due? = none) :
    walk.produced (.next :: script) = walk.next.2.produced script := by
  rw [produced, answers, next, h, List.reduceOption_cons_of_none]
  rfl

theorem length_answers (walk : Walk) (script : List Request) :
    (walk.answers script).length = script.count .next := by
  induction script generalizing walk with
  | nil => rfl
  | cons request rest ih =>
    cases request with
    | next => rw [answers, List.length_cons, ih, List.count_cons_self]
    | skip => rw [answers, ih, List.count_cons_of_ne (by decide)]

/-- A walk at its end stays there. -/
theorem answers_eq_replicate (h : walk.pending = none) (script : List Request) :
    walk.answers script = List.replicate (script.count .next) none := by
  induction script generalizing walk with
  | nil => rfl
  | cons request rest ih =>
    cases request with
    | next =>
      have hdue : walk.due? = none := by simp [due?, h]
      rw [answers, List.count_cons_self, List.replicate_succ, next, hdue]
      exact congrArg (none :: ·) (ih rfl)
    | skip =>
      rw [answers, List.count_cons_of_ne (by decide)]
      exact ih h

/-- **Once there is no event, there is none any more**: the answers are events up to some point and
none from there on. -/
theorem exists_answers_eq (walk : Walk) (script : List Request) :
    ∃ count, walk.answers script =
      (walk.produced script).map some ++ List.replicate count none := by
  induction script generalizing walk with
  | nil => exact ⟨0, rfl⟩
  | cons request rest ih =>
    cases request with
    | skip => exact ih walk.skipSubtree
    | next =>
      cases hdue : walk.due? with
      | some event =>
        obtain ⟨count, hcount⟩ := ih walk.next.2
        refine ⟨count, ?_⟩
        rw [produced_next_of_some rest hdue, answers, hcount, next, hdue]
        rfl
      | none =>
        have hpending : walk.next.2.pending = none := by simp [next, hdue]
        have hanswers : walk.answers (.next :: rest) =
            List.replicate (rest.count .next + 1) none := by
          rw [answers, answers_eq_replicate hpending, next, hdue, List.replicate_succ]
        refine ⟨rest.count .next + 1, ?_⟩
        rw [produced, hanswers, List.reduceOption_replicate_none]
        rfl

/-- Every event of a walk is one of those that were left when it started. -/
theorem eventsAfter_lt_of_mem_produced (walk : Walk) (script : List Request) {event : WalkEvent}
    (h : event ∈ walk.produced script) : eventsAfter event < walk.remaining := by
  induction script generalizing walk with
  | nil => cases h
  | cons request rest ih =>
    cases request with
    | skip => exact ih walk.skipSubtree h
    | next =>
      rcases List.mem_cons.1 (mem_produced_iff.1 h) with hnow | hlater
      · exact eventsAfter_lt_remaining hnow.symm
      · have hlt := ih walk.next.2 (mem_produced_iff.2 hlater)
        cases hdue : walk.due? with
        | some other => exact Nat.lt_trans hlt (remaining_next hdue)
        | none => simp [next, hdue, remaining] at hlt

/-- **Fewer events of the whole tree are left after each event**, whatever is asked of the walk. -/
theorem pairwise_eventsAfter_produced (walk : Walk) (script : List Request) :
    (walk.produced script).Pairwise fun before after => eventsAfter after < eventsAfter before := by
  induction script generalizing walk with
  | nil => exact .nil
  | cons request rest ih =>
    cases request with
    | skip => exact ih walk.skipSubtree
    | next =>
      cases hdue : walk.due? with
      | some event =>
        rw [produced_next_of_some rest hdue]
        refine .cons (fun after hafter => ?_) (ih walk.next.2)
        exact Nat.lt_of_lt_of_le (eventsAfter_lt_of_mem_produced _ rest hafter)
          (remaining_next_le hdue)
      | none =>
        rw [produced_next_of_none rest hdue]
        exact ih walk.next.2

/-- The events of a walk in a tree are at nodes of the tree, wherever the walk was started. -/
theorem InTree.within_of_mem_produced (h : walk.InTree tree) (script : List Request)
    {event : WalkEvent} (hmem : event ∈ walk.produced script) :
    (Node.top tree).Within event.node := by
  induction script generalizing walk with
  | nil => cases hmem
  | cons request rest ih =>
    cases request with
    | skip => exact ih (show walk.skipSubtree.InTree tree from h) hmem
    | next =>
      rcases List.mem_cons.1 (mem_produced_iff.1 hmem) with hnow | hlater
      · exact h.due? hnow.symm
      · exact ih h.next (mem_produced_iff.2 hlater)

/-- **Events come in the order of the tour** of the whole tree. -/
theorem InTree.pairwise_placeInTour (h : walk.InTree tree) (script : List Request) :
    (walk.produced script).Pairwise fun before after =>
      (Node.top tree).placeInTour before < (Node.top tree).placeInTour after := by
  refine (walk.pairwise_eventsAfter_produced script).imp_of_mem
    fun {before after} hbefore hafter hlt => ?_
  have hplace := (h.within_of_mem_produced script hbefore).placeInTour_add
  have hplace' := (h.within_of_mem_produced script hafter).placeInTour_add
  omega

/-- No event comes twice. -/
theorem InTree.pairwise_produced (h : walk.InTree tree) (script : List Request) :
    (walk.produced script).Pairwise fun before after => (before == after) = false := by
  refine (h.pairwise_placeInTour script).imp_of_mem fun {before after} hbefore hafter hlt => ?_
  refine Bool.eq_false_iff.2 fun hsame => ?_
  have hin := h.within_of_mem_produced script hbefore
  have hin' := h.within_of_mem_produced script hafter
  rw [hin.eq_of_event_beq hin' hsame] at hlt
  exact Nat.lt_irrefl _ hlt

/-- A walk has no more events than the tour of the whole tree. -/
theorem InTree.length_produced_le (h : walk.InTree tree) (script : List Request) :
    (walk.produced script).length ≤ 2 * tree.nodeCount := by
  have hnodup : (walk.produced script).Nodup := by
    refine (walk.pairwise_eventsAfter_produced script).imp fun {before after} hlt heq => ?_
    rw [heq] at hlt
    exact Nat.lt_irrefl _ hlt
  have hle := (hnodup.subperm fun event hmem =>
    Node.mem_tour_iff.2 (h.within_of_mem_produced script hmem)).length_le
  rwa [Node.length_tour] at hle

theorem inTree_walk {start : Node} (h : (Node.top tree).Within start) :
    start.walk.InTree tree := by
  rintro event ⟨⟩
  exact h

end Walk

/-- **Walks go forward in the tour of the whole tree.** Whatever is asked of a walk from a node that
a run holds, also if a skip comes before the first event, its events stand in the tour of the whole
tree, each behind the one before it. So no event comes twice, there are at most two for each node of
the tree, and after them there is no event any more, whatever is asked. -/
theorem Forest.Holds.answers_ascend {forest : Forest} {start : Node}
    (hstart : forest.Holds start) (script : List Request) :
    (∀ event ∈ start.walk.produced script, event ∈ start.root.tour fun _ => false) ∧
    (start.walk.produced script).Pairwise (fun before after =>
      start.root.placeInTour before < start.root.placeInTour after) ∧
    (start.walk.produced script).Pairwise (fun before after => (before == after) = false) ∧
    (start.walk.produced script).length ≤ 2 * start.root.tree.nodeCount ∧
    ∃ count, start.walk.answers script =
        (start.walk.produced script).map some ++ List.replicate count none ∧
      (2 * start.root.tree.nodeCount < script.count .next → 0 < count) := by
  obtain ⟨tree, -, hroot, hwithin⟩ := hstart.exists_root_eq
  have hin := Walk.inTree_walk hwithin
  have hlength := hin.length_produced_le script
  rw [hroot]
  refine ⟨fun event hmem => Node.mem_tour_iff.2 (hin.within_of_mem_produced script hmem),
    hin.pairwise_placeInTour script, hin.pairwise_produced script, hlength, ?_⟩
  obtain ⟨count, hcount⟩ := start.walk.exists_answers_eq script
  refine ⟨count, hcount, fun hmany => ?_⟩
  have htotal := start.walk.length_answers script
  rw [hcount, List.length_append, List.length_map, List.length_replicate] at htotal
  rw [Node.tree_top] at hmany
  omega

namespace Forest

/-- The variable `x` of the assignment `x=y`. -/
def leftVariable : Node :=
  .inner leftSide 0 0
    ⟨⟨0, [0, 0]⟩, .identifierVariable, 1, [.token 0 ⟨0, [0, 0, 0]⟩ (.identifier "x")]⟩

/-- A walk from the variable `x` of `x=y` that is asked to skip first goes through all that stands
behind the variable, up to the end of the assignment. -/
theorem answers_ascend_leftVariable :
    (empty.add 0 assignmentTree).Holds leftVariable ∧
    (leftVariable.walk.produced [.skip, .next, .next, .skip, .next, .next, .skip, .next]).map
      (Node.top assignmentTree).placeInTour = [4, 5, 6, 7] ∧
    (leftVariable.walk.produced [.skip, .next, .next, .skip, .next, .next, .skip, .next]).Pairwise
      (fun before after => (before == after) = false) ∧
    (leftVariable.walk.produced
      [.skip, .next, .next, .skip, .next, .next, .skip, .next]).length ≤ 8 := by
  have hholds : (empty.add 0 assignmentTree).Holds leftVariable :=
    holds_leftSide.of_within (.of_mem_children (.head _))
  obtain ⟨-, -, hdistinct, hlength, -⟩ :=
    hholds.answers_ascend [.skip, .next, .next, .skip, .next, .next, .skip, .next]
  exact ⟨hholds, rfl, hdistinct, hlength⟩

end Forest

end LosslessTree
