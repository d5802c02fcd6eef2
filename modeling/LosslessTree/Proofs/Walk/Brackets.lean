import LosslessTree.Proofs.Walk.Entered
import LosslessTree.Proofs.Walk.Progress

/-!
# The brackets of a walk

Whoever holds a walk may ask it to skip at any time. Once the first event has been asked for, this
leaves the events well nested: entering a node opens a bracket, leaving it closes the bracket, and
directly inside the bracket of a node stand brackets of its children, of the first few of them.
Which ones, the requests tell: none of them if a skip comes after the node has been entered, and
otherwise all up to the first child after whose leaving a skip comes.

A walk never has an event twice, so requests that come between two answers can be read as requests
that come after an event. This makes the walk one that skips after given events, and it follows a
round.

## Main definitions

* `Node.Nests`: events that stand well nested inside the bracket of a node.
* `Node.enteredBelow`: the children of a node that some events enter.
* `Walk.log`, `Walk.SkipsAfter`: the answers of a walk, and whether a skip follows them.
* `Node.Brackets`: the events of a walk that is told to skip after some of them.

## Main results

* `Node.enteredBelow_round`: a round enters the children that the walk comes to.
* `Walk.produced_eq_rest`: skips between answers are skips after events.
* `Forest.Holds.brackets_produced`: the events of a walk are brackets.
-/

namespace LosslessTree

namespace Node

variable {start node child below : Node} {skipAfter : WalkEvent → Bool} {tree : Tree}

/-! ### Brackets -/

/-- Events that stand inside the bracket of a node: the brackets of some of its children, one after
the other, and inside each of them the same again. -/
inductive Nests : Node → List WalkEvent → Prop
  | nil (node : Node) : Nests node []
  | cons {node child : Node} {inside behind : List WalkEvent} (mem : child ∈ node.children)
      (nests : Nests child inside) (rest : Nests node behind) :
      Nests node (.enter child :: inside ++ .leave child :: behind)

/-- The children of a node that some events enter, in order. -/
def enteredBelow (node : Node) (events : List WalkEvent) : List Node :=
  (events.filterMap WalkEvent.entered?).filter fun other => other.parent? == some node

/-- The events of a walk from `start` that is told to skip after some of them. -/
structure Brackets (start : Node) (skips : WalkEvent → Prop) (events : List WalkEvent) : Prop where
  /-- The outermost bracket is that of the start, and the others stand below their parents. -/
  nests : ∃ inside, events = .enter start :: inside ++ [.leave start] ∧ start.Nests inside
  /-- No node is entered twice. -/
  once : (events.filterMap WalkEvent.entered?).Pairwise fun before after =>
    (before == after) = false
  /-- The children that are entered are the first few. -/
  first : ∀ node, .enter node ∈ events → node.enteredBelow events <+: node.children
  /-- A skip after entering a node leaves out all its children. -/
  none_entered : ∀ node, .enter node ∈ events → skips (.enter node) → node.enteredBelow events = []
  /-- A skip after leaving a child leaves out the children behind it. -/
  cut : ∀ child, skips (.leave child) → (child == start) = false → ∃ parent front back,
    .enter parent ∈ events ∧ parent.children = front ++ child :: back ∧
      parent.enteredBelow events = front ++ [child]
  /-- Without such skips no child is left out. -/
  all_entered : ∀ node, .enter node ∈ events → ¬skips (.enter node) →
    (∀ child ∈ node.children, ¬skips (.leave child)) → node.enteredBelow events = node.children

/-! ### Rounds are brackets -/

theorem nests_flatMap_round {children : List Node}
    (hmem : ∀ child ∈ children, child ∈ node.children)
    (h : ∀ child ∈ children, child.Nests ((child.visited skipAfter).flatMap (round skipAfter))) :
    node.Nests (children.flatMap (round skipAfter)) := by
  induction children with
  | nil => exact .nil node
  | cons child rest ih =>
    have hrest := ih (fun other hother => hmem other (.tail _ hother))
      fun other hother => h other (.tail _ hother)
    rw [List.flatMap_cons, round_eq, List.append_assoc]
    exact .cons (hmem child (.head _)) (h child (.head _)) hrest

/-- The rounds of the children that a walk comes to are well nested. -/
theorem nests_round (skipAfter : WalkEvent → Bool) (node : Node) :
    node.Nests ((node.visited skipAfter).flatMap (round skipAfter)) := by
  induction node using Node.induction with
  | step node ih =>
    have hmem (child : Node) (hchild : child ∈ node.visited skipAfter) : child ∈ node.children :=
      mem_children_of_mem_visited hchild
    exact nests_flatMap_round hmem fun child hchild => ih child (hmem child hchild)

/-- A round comes to a node if the node is the first one, or if the round of a child comes to it. -/
theorem mem_round_cases {event : WalkEvent} :
    event ∈ node.round skipAfter ↔ event = .enter node ∨ event = .leave node ∨
      ∃ child ∈ node.visited skipAfter, event ∈ child.round skipAfter := by
  rw [round_eq, List.cons_append, List.mem_cons, List.mem_append, List.mem_singleton,
    List.mem_flatMap, or_comm (a := event = .leave node)]

/-- A round is the tour with some events left out. -/
theorem round_sublist_tour (skipAfter : WalkEvent → Bool) (node : Node) :
    (node.round skipAfter).Sublist (node.tour fun _ => false) := by
  induction node using Node.induction with
  | step node ih =>
    have hmem (child : Node) (hchild : child ∈ node.visited skipAfter) : child ∈ node.children :=
      mem_children_of_mem_visited hchild
    have hbelow : ((node.visited skipAfter).flatMap (round skipAfter)).Sublist
        (node.children.flatMap (tour fun _ => false)) :=
      (List.Sublist.flatMap_right _ fun child hchild => ih child (hmem child hchild)).trans
        (.flatMap (node.visited_prefix_children skipAfter).sublist _)
    rw [round_eq, tour_eq, if_neg Bool.false_ne_true]
    exact (hbelow.cons_cons _).append (.refl _)

/-- Only nodes of the subtree are met on a round. -/
theorem within_of_mem_round {event : WalkEvent} (h : event ∈ node.round skipAfter) :
    node.Within event.node :=
  mem_tour_iff.1 ((node.round_sublist_tour skipAfter).subset h)

/-- A node that a round leaves is the first one, or one of the children of a node that the round
enters, and one to which the walk comes. -/
theorem exists_of_leave_mem_round (h : .leave below ∈ node.round skipAfter) :
    below = node ∨
      ∃ parent, .enter parent ∈ node.round skipAfter ∧ below ∈ parent.visited skipAfter := by
  induction node using Node.induction with
  | step node ih =>
    rcases mem_round_cases.1 h with heq | heq | ⟨child, hchild, hbelow⟩
    · cases heq
    · cases heq
      exact .inl rfl
    · rcases ih child (mem_children_of_mem_visited hchild) hbelow with rfl | ⟨parent, hparent, hmem⟩
      · exact .inr ⟨node, mem_round_cases.2 (.inl rfl), hchild⟩
      · exact .inr ⟨parent, mem_round_cases.2 (.inr (.inr ⟨child, hchild, hparent⟩)), hmem⟩

/-! ### The children that a round enters -/

/-- Of the nodes of one tree, those above which a node stands directly are its children. -/
theorem Within.parent?_beq_iff (h : (top tree).Within below) (hnode : (top tree).Within node) :
    (below.parent? == some node) = true ↔ below ∈ node.children := by
  constructor
  · intro hsame
    cases hparent : below.parent? with
    | none =>
      rw [hparent] at hsame
      cases hsame
    | some parent =>
      rw [hparent] at hsame
      obtain ⟨habove, hchild⟩ := h.of_parent? hparent
      obtain rfl := (habove.beq_iff_eq hnode).1 hsame
      exact hchild
  · intro hchild
    rw [parent?_of_mem_children hchild]
    exact node.same_self

/-- A child of a node that stands below another one is that one, unless the node stands below it
too. -/
theorem Within.eq_or_of_mem_children (h : child.Within below) (hbelow : below ∈ node.children) :
    below = child ∨ child.Within node := by
  rcases Relation.ReflTransGen.cases_tail h with heq | ⟨parent, hparent, hmem⟩
  · exact .inl heq
  · obtain rfl := eq_of_mem_children hmem hbelow
    exact .inr hparent

theorem enteredBelow_flatMap (node : Node) (children : List Node) (f : Node → List WalkEvent) :
    node.enteredBelow (children.flatMap f) = children.flatMap fun child =>
      node.enteredBelow (f child) := by
  rw [enteredBelow, List.filterMap_flatMap, List.filter_flatMap]
  rfl

/-- On a round, the children of a node are entered as the node and the nodes below say. -/
theorem enteredBelow_round_eq (node start : Node) :
    node.enteredBelow (start.round skipAfter) =
      (if start.parent? == some node then [start] else []) ++
        (start.visited skipAfter).flatMap fun child =>
          node.enteredBelow (child.round skipAfter) := by
  rw [← enteredBelow_flatMap, round_eq, enteredBelow, List.filterMap_append]
  have hlast : [WalkEvent.leave start].filterMap WalkEvent.entered? = [] := rfl
  rw [hlast, List.append_nil, List.filterMap_cons, WalkEvent.entered?, List.filter_cons]
  split <;> rfl

/-- On the round of another node, no child of a node is entered, unless the node is met there. -/
theorem enteredBelow_round_eq_nil (hstart : (top tree).Within start)
    (hnode : (top tree).Within node) (hchild : start ∉ node.children) (h : ¬start.Within node) :
    node.enteredBelow (start.round skipAfter) = [] := by
  refine List.filter_eq_nil_iff.2 fun below hmem hparent => ?_
  obtain ⟨event, hevent, hentered⟩ := List.mem_filterMap.1 hmem
  have hwithin := within_of_mem_round hevent
  cases event with
  | leave other => cases hentered
  | enter other =>
    cases hentered
    have hbelow := ((hstart.trans hwithin).parent?_beq_iff hnode).1 hparent
    rcases Within.eq_or_of_mem_children hwithin hbelow with rfl | habove
    · exact hchild hbelow
    · exact h habove

/-- On the round of a child, that child is entered, and no other child of the node. -/
theorem enteredBelow_round_child (hnode : (top tree).Within node) (hchild : child ∈ node.children) :
    node.enteredBelow (child.round skipAfter) = [child] := by
  have hself : (child.parent? == some node) = true :=
    ((hnode.tail hchild).parent?_beq_iff hnode).2 hchild
  have hnone (other : Node) (hother : other ∈ child.visited skipAfter) :
      node.enteredBelow (other.round skipAfter) = [] := by
    have hmem := mem_children_of_mem_visited hother
    refine enteredBelow_round_eq_nil ((hnode.tail hchild).tail hmem) hnode (fun hboth => ?_)
      fun hback => Within.not_parent hchild (.head hmem hback)
    obtain rfl := eq_of_mem_children hmem hboth
    exact Within.not_parent hchild (.refl child)
  rw [enteredBelow_round_eq, if_pos hself, List.flatMap_eq_nil_iff.2 hnone, List.append_nil]

/-- What some nodes give together is what one of them gives if the others give nothing. -/
theorem flatMap_eq_of_forall_ne {f : Node → List Node} {nodes : List Node} (hnodup : nodes.Nodup)
    (hmem : node ∈ nodes) (h : ∀ other ∈ nodes, other ≠ node → f other = []) :
    nodes.flatMap f = f node := by
  obtain ⟨front, back, rfl⟩ := List.append_of_mem hmem
  have hnot := (List.nodup_cons.1 (List.nodup_middle.1 hnodup)).1
  have hfront : front.flatMap f = [] := List.flatMap_eq_nil_iff.2 fun other hother =>
    h other (List.mem_append_left _ hother) fun heq =>
      hnot (heq ▸ List.mem_append_left _ hother)
  have hback : back.flatMap f = [] := List.flatMap_eq_nil_iff.2 fun other hother =>
    h other (List.mem_append_right _ (.tail _ hother)) fun heq =>
      hnot (heq ▸ List.mem_append_right _ hother)
  rw [List.flatMap_append, List.flatMap_cons, hfront, hback, List.nil_append, List.append_nil]

theorem nodup_visited (skipAfter : WalkEvent → Bool) (node : Node) :
    (node.visited skipAfter).Nodup := by
  refine (node.pairwise_index_children.imp fun {child other} hindex heq => ?_).sublist
    (node.visited_prefix_children skipAfter).sublist
  exact hindex (congrArg index heq)

/-- **A round enters the children that the walk comes to**, of each node that it enters. -/
theorem enteredBelow_round (hstart : (top tree).Within start)
    (h : .enter node ∈ start.round skipAfter) :
    node.enteredBelow (start.round skipAfter) = node.visited skipAfter := by
  induction start using Node.induction with
  | step start ih =>
    have hwithin : start.Within node := within_of_mem_round h
    have hnode := hstart.trans hwithin
    have hself : ¬(start.parent? == some node) = true := fun hparent =>
      Within.not_parent ((hstart.parent?_beq_iff hnode).1 hparent) hwithin
    rw [enteredBelow_round_eq, if_neg hself, List.nil_append]
    rcases mem_round_cases.1 h with heq | heq | ⟨child, hchild, hbelow⟩
    · cases heq
      rw [List.flatMap_congr fun child hchild =>
        enteredBelow_round_child hstart (mem_children_of_mem_visited hchild)]
      exact List.flatMap_singleton' _
    · cases heq
    · -- Below the other children nothing is found, for the node stands below this one.
      have hmem := mem_children_of_mem_visited hchild
      have hunder : child.Within node := within_of_mem_round hbelow
      have hothers (other : Node) (hother : other ∈ start.visited skipAfter) (hne : other ≠ child) :
          node.enteredBelow (other.round skipAfter) = [] := by
        have hmem' := mem_children_of_mem_visited hother
        refine enteredBelow_round_eq_nil (hstart.tail hmem') hnode (fun hboth => ?_)
          fun hback => hne (eq_of_within_children hmem' hmem hback hunder)
        obtain rfl := eq_of_mem_children hmem' hboth
        exact Within.not_parent hmem hunder
      rw [flatMap_eq_of_forall_ne (start.nodup_visited skipAfter) hchild hothers]
      exact ih child hmem (hstart.tail hmem) hbelow

/-- No event comes twice on a round. -/
theorem pairwise_round (hstart : (top tree).Within start) (skipAfter : WalkEvent → Bool) :
    (start.round skipAfter).Pairwise fun before after => (before == after) = false := by
  have hnodup := start.nodup_tour.sublist (start.round_sublist_tour skipAfter)
  refine hnodup.imp_of_mem fun {before after} hbefore hafter hne => ?_
  have hin := hstart.trans (within_of_mem_round hbefore)
  have hin' := hstart.trans (within_of_mem_round hafter)
  exact Bool.eq_false_iff.2 fun hsame => hne (hin.eq_of_event_beq hin' hsame)

/-- **Rounds are brackets.** -/
theorem brackets_round (hstart : (top tree).Within start) {skips : WalkEvent → Prop}
    (hskips : ∀ event, skips event → event ∈ start.round skipAfter)
    (h : ∀ event, skipAfter event = true ↔ skips event) :
    start.Brackets skips (start.round skipAfter) where
  nests := ⟨_, round_eq skipAfter start, nests_round skipAfter start⟩
  once := by
    refine List.pairwise_filterMap.2 ((pairwise_round hstart skipAfter).imp ?_)
    rintro (before | _) (after | _) hne _ ⟨⟩ _ ⟨⟩
    exact hne
  first node hnode := by
    rw [enteredBelow_round hstart hnode]
    exact visited_prefix_children skipAfter node
  none_entered node hnode hskip := by
    rw [enteredBelow_round hstart hnode, visited, if_pos ((h _).2 hskip)]
  cut child hskip hother := by
    rcases exists_of_leave_mem_round (hskips _ hskip) with rfl | ⟨parent, hparent, hvisited⟩
    · exact absurd child.same_self (Bool.eq_false_iff.1 hother)
    · obtain ⟨front, back, hsplit⟩ := List.append_of_mem hvisited
      obtain ⟨rest, hchildren, hback⟩ := exists_of_visited_eq hsplit
      rw [if_pos ((h _).2 hskip), List.head?_eq_none_iff] at hback
      refine ⟨parent, front, rest, hparent, hchildren, ?_⟩
      rw [enteredBelow_round hstart hparent, hsplit, hback]
  all_entered node hnode hskip hnone := by
    have hchildren (child : Node) (hchild : child ∈ node.children) :
        skipAfter (.leave child) = false :=
      Bool.eq_false_iff.2 fun hleave => hnone child hchild ((h _).1 hleave)
    rw [enteredBelow_round hstart hnode, visited, if_neg (mt (h _).1 hskip), upTo_eq_self hchildren]

end Node

/-! ### Skips between the answers -/

namespace Walk

variable {walk : Walk} {script : List Request} {skipAfter : WalkEvent → Bool}

/-- The answers to the requests for an event, each with whether a skip follows it. -/
def log (walk : Walk) : List Request → List (Option WalkEvent × Bool)
  | [] => []
  | .next :: rest => (walk.next.1, rest.head? == some .skip) :: walk.next.2.log rest
  | .skip :: rest => walk.skipSubtree.log rest

/-- A skip is asked for between an event and the next one. -/
def SkipsAfter (walk : Walk) (script : List Request) (event : WalkEvent) : Prop :=
  (some event, true) ∈ walk.log script

theorem map_fst_log (walk : Walk) (script : List Request) :
    (walk.log script).map Prod.fst = walk.answers script := by
  induction script generalizing walk with
  | nil => rfl
  | cons request rest ih =>
    cases request with
    | next => rw [log, answers, List.map_cons, ih]
    | skip => exact ih walk.skipSubtree

theorem mem_produced_of_mem_log {event : WalkEvent} {skip : Bool}
    (h : (some event, skip) ∈ walk.log script) : event ∈ walk.produced script := by
  rw [mem_produced_iff, ← map_fst_log]
  exact List.mem_map_of_mem h

/-- **Each event is followed by a skip or not**, for it comes once. -/
theorem eq_of_mem_log {event : WalkEvent} {skip other : Bool}
    (h : (some event, skip) ∈ walk.log script) (hother : (some event, other) ∈ walk.log script) :
    skip = other := by
  induction script generalizing walk with
  | nil => cases h
  | cons request rest ih =>
    cases request with
    | skip =>
      have hlog : (some event, skip) ∈ walk.skipSubtree.log rest := h
      exact ih hlog hother
    | next =>
      have hlater (flag : Bool) (hdue : walk.due? = some event)
          (hmem : (some event, flag) ∈ walk.next.2.log rest) : False := by
        have hlt := eventsAfter_lt_of_mem_produced _ rest (mem_produced_of_mem_log hmem)
        exact Nat.not_lt.2 (remaining_next_le hdue) hlt
      rcases List.mem_cons.1 h with hnow | hmem
      · rcases List.mem_cons.1 hother with hnow' | hmem'
        · exact (congrArg Prod.snd hnow).trans (congrArg Prod.snd hnow').symm
        · exact (hlater other (congrArg Prod.fst hnow).symm hmem').elim
      · rcases List.mem_cons.1 hother with hnow' | hmem'
        · exact (hlater skip (congrArg Prod.fst hnow').symm hmem).elim
        · exact ih hmem hmem'

/-- The walk when its first event is asked for. -/
def beforeNext (walk : Walk) (script : List Request) : Walk :=
  if script.head? == some .skip then walk.skipSubtree else walk

/-- **Skips between answers are skips after events.** A walk that is asked for events until there is
none produces what is left of a walk that skips after the events that a skip follows. -/
theorem produced_eq_rest
    (h : ∀ event skip, (some event, skip) ∈ walk.log script → skipAfter event = skip)
    (hend : none ∈ walk.answers script) :
    walk.produced script = ((walk.beforeNext script).rest skipAfter).1 := by
  induction script generalizing walk with
  | nil => cases hend
  | cons request rest ih =>
    cases request with
    | skip =>
      have hrest : walk.skipSubtree.produced rest = _ := ih h hend
      have hsame : walk.skipSubtree.beforeNext rest = walk.skipSubtree := by
        rw [beforeNext]
        split <;> rfl
      rw [hsame] at hrest
      exact hrest
    | next =>
      change _ = (walk.rest skipAfter).1
      cases hdue : walk.due? with
      | none =>
        have hpending : walk.next.2.pending = none := by simp [next, hdue]
        rw [produced_next_of_none rest hdue, rest_of_due?_eq_none skipAfter hdue, produced,
          answers_eq_replicate hpending, List.reduceOption_replicate_none]
      | some event =>
        have hflag : skipAfter event = (rest.head? == some .skip) := by
          refine h event _ ?_
          rw [log, next, hdue]
          exact .head _
        have hend' : none ∈ walk.next.2.answers rest := by
          rcases List.mem_cons.1 hend with hnow | hlater
          · cases hnow.trans hdue
          · exact hlater
        have hrest := ih (fun event skip hmem => h event skip (.tail _ hmem)) hend'
        rw [produced_next_of_some rest hdue, rest_of_due?_eq_some skipAfter hdue, hrest, advance,
          hflag]
        rfl

end Walk

open scoped Classical in
/-- **The events of a walk are brackets.** Whatever is asked of a walk from a node that a run holds,
if an event is asked for first and events are asked for until there is none, the events are well
nested, from entering the start to leaving it. -/
theorem Forest.Holds.brackets_produced {forest : Forest} {start : Node}
    (hstart : forest.Holds start) (script : List Request)
    (hend : none ∈ start.walk.answers (.next :: script)) :
    start.Brackets (start.walk.SkipsAfter (.next :: script))
      (start.walk.produced (.next :: script)) := by
  obtain ⟨tree, -, hwithin⟩ := hstart
  let skipAfter (event : WalkEvent) : Bool := decide (start.walk.SkipsAfter (.next :: script) event)
  have hlog (event : WalkEvent) (skip : Bool)
      (hmem : (some event, skip) ∈ start.walk.log (.next :: script)) : skipAfter event = skip := by
    cases skip with
    | true => exact decide_eq_true hmem
    | false => exact decide_eq_false fun hskips => Bool.noConfusion (Walk.eq_of_mem_log hskips hmem)
  have hround : start.walk.produced (.next :: script) = start.round skipAfter :=
    (Walk.produced_eq_rest hlog hend).trans (Walk.rest_walk_eq_round hwithin skipAfter)
  rw [hround]
  refine Node.brackets_round hwithin (fun event hskips => ?_) fun event => decide_eq_true_iff
  rw [← hround]
  exact Walk.mem_produced_of_mem_log hskips

namespace Forest

/-- A walk through the assignment `x=y` that is asked to skip twice after the left-hand side was
entered and once after it was left goes through the left-hand side alone. -/
theorem brackets_assignment :
    (empty.add 0 assignmentTree).Holds (.top assignmentTree) ∧
    (Node.top assignmentTree).walk.answers
      [.next, .next, .skip, .skip, .next, .skip, .next, .skip, .next] =
        [some (.enter (.top assignmentTree)), some (.enter leftSide), some (.leave leftSide),
          some (.leave (.top assignmentTree)), none] ∧
    (Node.top assignmentTree).Brackets
      ((Node.top assignmentTree).walk.SkipsAfter
        [.next, .next, .skip, .skip, .next, .skip, .next, .skip, .next])
      [.enter (.top assignmentTree), .enter leftSide, .leave leftSide,
        .leave (.top assignmentTree)] := by
  have hholds : (empty.add 0 assignmentTree).Holds (.top assignmentTree) :=
    ⟨assignmentTree, .head _, .refl _⟩
  have hanswers : (Node.top assignmentTree).walk.answers
      [.next, .next, .skip, .skip, .next, .skip, .next, .skip, .next] =
        [some (.enter (.top assignmentTree)), some (.enter leftSide), some (.leave leftSide),
          some (.leave (.top assignmentTree)), none] := rfl
  have hend : none ∈ (Node.top assignmentTree).walk.answers
      [.next, .next, .skip, .skip, .next, .skip, .next, .skip, .next] := by
    rw [hanswers]
    simp
  exact ⟨hholds, hanswers, hholds.brackets_produced _ hend⟩

end Forest

end LosslessTree
