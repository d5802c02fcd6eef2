import LosslessTree.Proofs.Walk.Tour

/-!
# Walks and the subtree they start in

Whoever holds a walk may ask for the next event and may ask to skip a subtree, in any order. Each
event that enters a node below the start is exchanged, on a skip, for the one that leaves its
parent, and that is a node of the subtree as well. The one event for which this fails is the first
one: it enters the start itself, whose parent stands outside. So a walk stays in its subtree exactly
if no skip comes before the first event, or the start is a root, or no event is asked for at all.

## Main definitions

* `Request`: what can be asked of a walk.
* `Walk.answers`: the answers to the requests for an event.
* `WalkEvent.Inside`: events that lead nowhere out of a subtree, skipped or not.

## Main results

* `Walk.inside_successor?`: what follows an event in the subtree is inside.
* `Walk.within_of_mem_answers_next`: a walk whose next event is one of the subtree stays there.
* `Forest.Holds.answers_within_iff`: when a walk stays in its subtree.
-/

namespace LosslessTree

/-- What can be asked of a walk: the next event, or to skip a subtree. -/
inductive Request where
  | next
  | skip
  deriving DecidableEq, Repr

/-- An event that leads nowhere out of the subtree of `start`, whether the subtree is skipped or
not: a node is entered from a node of the subtree, or a node of the subtree is left. -/
def WalkEvent.Inside (start : Node) : WalkEvent → Prop
  | enter n => ∃ parent, start.Within parent ∧ n ∈ parent.children
  | leave n => start.Within n

namespace WalkEvent.Inside

variable {start : Node} {event : WalkEvent}

theorem within (h : event.Inside start) : start.Within event.node := by
  cases event with
  | enter n =>
    obtain ⟨parent, hparent, hchild⟩ := h
    exact hparent.tail hchild
  | leave n => exact h

theorem skipped? (h : event.Inside start) {other : WalkEvent}
    (hskip : event.skipped? = some other) : other.Inside start := by
  cases event with
  | enter n =>
    obtain ⟨parent, hparent, hchild⟩ := h
    rw [WalkEvent.skipped?, Node.parent?_of_mem_children hchild] at hskip
    cases hskip
    exact hparent
  | leave n =>
    cases hskip
    exact h

end WalkEvent.Inside

namespace Walk

variable {walk : Walk} {start : Node}

/-- The answers to the requests for an event, in order. -/
def answers (walk : Walk) : List Request → List (Option WalkEvent)
  | [] => []
  | .next :: rest => walk.next.1 :: walk.next.2.answers rest
  | .skip :: rest => walk.skipSubtree.answers rest

/-- The event that follows an event of the subtree is inside, if there is one. -/
theorem inside_successor? {tree : Tree} (hstart : (Node.top tree).Within walk.start)
    {event other : WalkEvent} (h : walk.start.Within event.node)
    (hsucc : walk.successor? event = some other) : other.Inside walk.start := by
  cases event with
  | enter n =>
    simp only [successor?] at hsucc
    split at hsucc
    · rename_i child hchild
      cases hsucc
      exact ⟨n, h, List.mem_of_head? hchild⟩
    · cases hsucc
      exact h
  | leave n =>
    simp only [successor?] at hsucc
    split at hsucc
    · cases hsucc
    · rename_i hother
      -- A node of the subtree other than the start has its parent in the subtree.
      change walk.start.Within n at h
      rcases Relation.ReflTransGen.cases_tail h with rfl | ⟨parent, hparent, hchild⟩
      · exact absurd walk.start.same_self hother
      · split at hsucc
        · rename_i sibling hsibling
          cases hsucc
          obtain ⟨above, -, hchild', hmem⟩ := (hstart.trans h).of_nextSibling? hsibling
          have habove := Node.parent?_of_mem_children hchild'
          rw [Node.parent?_of_mem_children hchild] at habove
          cases habove
          exact ⟨parent, hparent, hmem⟩
        · rw [Node.parent?_of_mem_children hchild] at hsucc
          cases hsucc
          exact hparent

/-- The event that is due next, if any, is inside. -/
def Inside (walk : Walk) : Prop :=
  ∀ event, walk.pending = some event → event.Inside walk.start

theorem Inside.due? (h : walk.Inside) {event : WalkEvent} (hdue : walk.due? = some event) :
    event.Inside walk.start := by
  unfold Walk.due? at hdue
  split at hdue
  · obtain ⟨pending, hpending, hskip⟩ := Option.bind_eq_some_iff.1 hdue
    exact (h pending hpending).skipped? hskip
  · exact h event hdue

/-- After an event of the subtree, the walk is inside. -/
theorem inside_next {tree : Tree} (hstart : (Node.top tree).Within walk.start)
    (h : ∀ event, walk.due? = some event → walk.start.Within event.node) : walk.next.2.Inside := by
  intro other hother
  obtain ⟨event, hdue, hsucc⟩ := Option.bind_eq_some_iff.1 hother
  exact inside_successor? hstart (h event hdue) hsucc

/-- A walk whose due event is inside stays in the subtree, whatever is asked of it. -/
theorem Inside.within_of_mem_answers {tree : Tree} (walk : Walk) (h : walk.Inside)
    (hstart : (Node.top tree).Within walk.start) (script : List Request) {event : WalkEvent}
    (hmem : some event ∈ walk.answers script) : walk.start.Within event.node := by
  induction script generalizing walk with
  | nil => cases hmem
  | cons request rest ih =>
    cases request with
    | skip => exact ih walk.skipSubtree h hstart hmem
    | next =>
      rcases List.mem_cons.1 hmem with hnow | hlater
      · exact (h.due? hnow.symm).within
      · have hnext := inside_next hstart fun event hdue => (h.due? hdue).within
        exact ih walk.next.2 hnext hstart hlater

/-- **A walk that starts well stays well**: if its next event is one of the subtree, so are all
that follow. -/
theorem within_of_mem_answers_next {tree : Tree} (hstart : (Node.top tree).Within walk.start)
    (h : ∀ event, walk.due? = some event → walk.start.Within event.node) (script : List Request)
    {event : WalkEvent} (hmem : some event ∈ walk.answers (.next :: script)) :
    walk.start.Within event.node := by
  rcases List.mem_cons.1 hmem with hnow | hlater
  · exact h event hnow.symm
  · exact Inside.within_of_mem_answers walk.next.2 (inside_next hstart h) hstart script hlater

/-- Repeated requests to skip before the next event act as one. -/
theorem exists_answers_skipSubtree (walk : Walk) {script : List Request} (hmem : .next ∈ script) :
    ∃ rest, walk.skipSubtree.answers script = walk.skipSubtree.answers (.next :: rest) := by
  induction script with
  | nil => cases hmem
  | cons request rest ih =>
    cases request with
    | next => exact ⟨rest, rfl⟩
    | skip => exact ih (by simpa using hmem)

theorem answers_of_not_mem {script : List Request} (h : .next ∉ script) :
    walk.answers script = [] := by
  induction script generalizing walk with
  | nil => rfl
  | cons request rest ih =>
    cases request with
    | next => exact absurd (.head _) h
    | skip => exact ih fun hmem => h (.tail _ hmem)

/-- A walk that is asked for an event first stays in the subtree. -/
theorem within_of_next_first {tree : Tree} (hstart : (Node.top tree).Within start)
    (rest : List Request) {event : WalkEvent}
    (hmem : some event ∈ start.walk.answers (.next :: rest)) : start.Within event.node := by
  have hfirst (event : WalkEvent) (hdue : start.walk.due? = some event) :
      start.walk.start.Within event.node := by
    cases hdue
    exact .refl start
  exact within_of_mem_answers_next hstart hfirst rest hmem

/-- A walk from a root that is asked to skip first has no events outside either: it is over. -/
theorem within_of_skip_first_of_root {tree : Tree} (hstart : (Node.top tree).Within start)
    (rest : List Request) (hroot : start.parent? = none) {event : WalkEvent}
    (hmem : some event ∈ start.walk.answers (.skip :: rest)) : start.Within event.node := by
  have hdue : start.walk.skipSubtree.due? = none := congrArg (Option.map WalkEvent.leave) hroot
  by_cases hnext : .next ∈ rest
  · have hfirst (event : WalkEvent) (hsome : start.walk.skipSubtree.due? = some event) :
        start.walk.skipSubtree.start.Within event.node := by
      rw [hdue] at hsome
      cases hsome
    obtain ⟨later, hlater⟩ := start.walk.exists_answers_skipSubtree hnext
    rw [answers, hlater] at hmem
    exact within_of_mem_answers_next hstart hfirst later hmem
  · rw [answers, answers_of_not_mem hnext] at hmem
    cases hmem

/-- A walk from a node below another one that is asked to skip first leaves the node above. -/
theorem leave_parent_mem_answers {parent : Node} (hparent : start.parent? = some parent)
    {rest : List Request} (hnext : .next ∈ rest) :
    some (.leave parent) ∈ start.walk.answers (.skip :: rest) := by
  have hdue : start.walk.skipSubtree.due? = some (.leave parent) :=
    congrArg (Option.map WalkEvent.leave) hparent
  obtain ⟨later, hlater⟩ := start.walk.exists_answers_skipSubtree hnext
  rw [answers, hlater, answers, next, hdue]
  exact .head _

end Walk

/-- **When a walk stays in its subtree.** Whatever is asked of a walk from a node that a run holds,
all events are at nodes of the subtree of its start exactly if the start is a root, or no skip comes
before the first event, or no event is asked for. -/
theorem Forest.Holds.answers_within_iff {forest : Forest} {start : Node}
    (hstart : forest.Holds start) (script : List Request) :
    (∀ event, some event ∈ start.walk.answers script → start.Within event.node) ↔
      start.parent? = none ∨ script.head? ≠ some .skip ∨ .next ∉ script := by
  obtain ⟨tree, -, hwithin⟩ := hstart
  constructor
  · intro hall
    by_contra hnot
    push Not at hnot
    obtain ⟨hparent, hhead, hnext⟩ := hnot
    obtain ⟨parent, hparent⟩ := Option.ne_none_iff_exists'.1 hparent
    obtain ⟨rest, rfl⟩ := List.head?_eq_some_iff.1 hhead
    have hleave := Walk.leave_parent_mem_answers hparent (by simpa using hnext)
    exact Node.Within.not_parent (hwithin.of_parent? hparent).2 (hall _ hleave)
  · intro hwhen event hmem
    match script, hmem with
    | [], hmem => cases hmem
    | .next :: rest, hmem => exact Walk.within_of_next_first hwithin rest hmem
    | .skip :: rest, hmem =>
      rcases hwhen with hroot | hhead | hnext
      · exact Walk.within_of_skip_first_of_root hwithin rest hroot hmem
      · exact absurd rfl hhead
      · rw [Walk.answers_of_not_mem hnext] at hmem
        cases hmem

namespace Forest

/-- The walk from the left-hand side of `x=y` stays there, also if it is asked to skip after every
event and after its end. -/
theorem answers_within_leftSide :
    (empty.add 0 assignmentTree).Holds leftSide ∧
    ∀ event, some event ∈ leftSide.walk.answers
        [.next, .next, .skip, .next, .skip, .next, .skip, .next] →
      leftSide.Within event.node :=
  ⟨holds_leftSide, (holds_leftSide.answers_within_iff _).2 (.inr (.inl (by decide)))⟩

/-- A walk from the left-hand side of `x=y` that is asked to skip before its first event leaves the
assignment, which is not in the subtree of the left-hand side. -/
theorem answers_outside_leftSide :
    (empty.add 0 assignmentTree).Reachable ∧ (empty.add 0 assignmentTree).Holds leftSide ∧
    leftSide.walk.answers [.skip, .next] = [some (.leave (.top assignmentTree))] ∧
    ¬leftSide.Within (.top assignmentTree) :=
  ⟨reachable_assignment, holds_leftSide, rfl, Node.Within.not_parent (.head _)⟩

end Forest

end LosslessTree
