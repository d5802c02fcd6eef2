import LosslessTree.Proofs.Transform.Asked
import LosslessTree.Proofs.Walk.Entered

/-!
# The order in which a rule is asked

A transformation goes down a tree by recursion and changes a copy of each node while it goes through
the children. A walk goes through the tree by looking around. Told to skip the subtree of each node
that the rule replaces, the walk enters the nodes about which the transformation asks, in the same
order: a node before the nodes below it, each node once, and nothing below a node that is replaced.

## Main definitions

* `Answer.replaces`: whether a node is to be replaced.
* `Node.replacementMessage?`: the message about a node that a rule replaces.

## Main results

* `Node.consulted_eq`: what a transformation asks is what a tour enters.
* `Forest.Holds.asked_eq_entered`: transformations ask in the order of walks.
-/

namespace LosslessTree

/-- Whether a node is to be replaced. -/
def Answer.replaces : Answer → Bool
  | keep => false
  | replace _ => true

theorem Answer.replaces_eq_false_iff {answer : Answer} :
    answer.replaces = false ↔ answer = .keep := by
  cases answer <;> simp [replaces]

namespace Node

variable {origin : Nat} {rule : Node → Answer} {node : Node} {position : List Nat} {tree : Tree}

/-- If a node that is kept has a new tree, all its children have one. -/
theorem exists_renewed_child (h : rule node = .keep)
    (hok : node.renewed origin rule position = .ok tree) {child : Node}
    (hchild : child ∈ node.children) :
    ∃ new, child.renewed origin rule (position ++ [child.index]) = .ok new := by
  rw [renewed_of_keep h] at hok
  obtain ⟨copy, hfold, -⟩ := bind_eq_ok_iff.1 hok
  exact (isSome_of_foldlM_renewPart node.parts hfold).2 child (mem_children.1 hchild)

/-- **What a transformation asks is what a tour enters** that skips what is replaced. -/
theorem consulted_eq (hok : node.renewed origin rule position = .ok tree) :
    node.consulted origin rule position =
      (node.entered fun below => (rule below).replaces).map fun below => ⟨below, rule below⟩ := by
  induction node using Node.induction generalizing position tree with
  | step node ih =>
    rw [entered_eq]
    cases hanswer : rule node with
    | replace replacement =>
      rw [consulted_of_replace hanswer]
      simp [Answer.replaces, hanswer]
    | keep =>
      have hchildren : node.children.flatMap (fun child =>
          child.consulted origin rule (position ++ [child.index])) =
            node.children.flatMap fun child =>
              (child.entered fun below => (rule below).replaces).map fun below =>
                ⟨below, rule below⟩ := by
        refine List.flatMap_congr fun child hchild => ?_
        obtain ⟨new, hnew⟩ := exists_renewed_child hanswer hok hchild
        exact ih child hchild hnew
      rw [consulted_of_keep hanswer hok, partConsulted, flatMap_parts, hchildren,
        if_neg (by simp [Answer.replaces]), List.map_cons, hanswer, List.map_flatMap]

/-- The message about a node that a rule replaces. -/
def replacementMessage? (rule : Node → Answer) (node : Node) : Option String :=
  match rule node with
  | .keep => none
  | .replace replacement =>
    some ("replacing " ++ node.kind.name ++ "@" ++ node.offset.repr ++ " with " ++
      replacement.kind.name)

theorem message_trace? (rule : Node → Answer) (node : Node) :
    (Consultation.trace? ⟨node, rule node⟩).map TraceLine.message =
      node.replacementMessage? rule := by
  unfold Consultation.trace? replacementMessage?
  cases rule node <;> rfl

/-- The consultations of a transformation that comes to its end, in order. -/
theorem asked_transform_eq {root : Node} (hok : (node.transform origin rule).result = .ok root) :
    (node.transform origin rule).asked =
      (node.entered fun below => (rule below).replaces).map fun below => ⟨below, rule below⟩ := by
  rw [result_transform] at hok
  obtain ⟨tree, hrenewed, -⟩ := bind_eq_ok_iff.1 hok
  rw [asked_transform, consulted_eq hrenewed]

end Node

/-- **Transformations ask in the order of walks.** If a transformation of a node that a run holds
comes to its end, the nodes about which it asks are those that a walk enters which skips the subtree
of every node that is replaced. So it asks about the nodes of the old tree that have no replaced
node above them, about each one once, about a node before the nodes below it and in textual order;
and it leaves one trace line for each node that is replaced, in the same order. -/
theorem Forest.Holds.asked_eq_entered {forest : Forest} {node root : Node}
    (hnode : forest.Holds node) {origin : Nat} {rule : Node → Answer}
    (hok : (node.transform origin rule).result = .ok root) :
    (node.transform origin rule).asked.map Consultation.node =
      (node.walk.rest (WalkEvent.enters fun below => (rule below).replaces)).1.filterMap
        WalkEvent.entered? ∧
    (∀ asked ∈ (node.transform origin rule).asked, asked.answer = rule asked.node) ∧
    (∀ below, below ∈ (node.transform origin rule).asked.map Consultation.node ↔
      node.Within below ∧ ∀ above, node.Within above → above.Within below → above ≠ below →
        rule above = .keep) ∧
    ((node.transform origin rule).asked.map Consultation.node).Pairwise
      (fun before after => (before == after) = false ∧ ¬after.Within before) ∧
    ((node.transform origin rule).asked.map Consultation.node).Sublist
      (node.walkEvents.filterMap WalkEvent.entered?) ∧
    (node.transform origin rule).trace.map TraceLine.message =
      (node.walk.rest (WalkEvent.enters fun below => (rule below).replaces)).1.filterMap
        fun event => event.entered?.bind (Node.replacementMessage? rule) := by
  obtain ⟨tree, -, hwithin⟩ := hnode
  have hasked := Node.asked_transform_eq hok
  have hnodes : (node.transform origin rule).asked.map Consultation.node =
      node.entered fun below => (rule below).replaces := by
    rw [hasked, List.map_map]
    exact List.map_id _
  rw [Walk.rest_walk hwithin, Walk.walkEvents_eq hwithin, hnodes]
  refine ⟨rfl, ?_, fun below => ?_, ?_, node.entered_sublist _, ?_⟩
  · intro asked hmem
    rw [hasked] at hmem
    obtain ⟨below, -, rfl⟩ := List.mem_map.1 hmem
    rfl
  · rw [Node.mem_entered_iff]
    simp only [Answer.replaces_eq_false_iff]
  · refine (node.pairwise_entered _).imp_of_mem fun {before after} hbefore hafter hback => ?_
    have hin := hwithin.trans (Node.within_of_mem_entered hbefore)
    have hin' := hwithin.trans (Node.within_of_mem_entered hafter)
    refine ⟨Bool.eq_false_iff.2 fun hsame => hback ?_, hback⟩
    rw [(hin.beq_iff_eq hin').1 hsame]
    exact .refl after
  · rw [Outcome.trace, hasked, List.filterMap_map, List.map_filterMap, Node.entered,
      List.filterMap_filterMap]
    refine List.filterMap_congr fun event _ => ?_
    cases event with
    | enter below => exact Node.message_trace? rule below
    | leave below => rfl

namespace Forest

/-- The right-hand side of the assignment `x=y`. -/
def rightSide : Node :=
  .inner (.top assignmentTree) 2 2
    ⟨⟨0, [2]⟩, .identifierVariable, 1, [.token 0 ⟨0, [2, 0]⟩ (.identifier "y")]⟩

/-- The rule that puts the right-hand side of `x=y` in place of every lvalue. -/
def leftByRight (node : Node) : Answer :=
  if node.kind = .lvalue then .replace rightSide else .keep

/-- The tree of `y=y`, in which one variable stands on both sides. -/
def mirroredTree : Tree :=
  ⟨⟨1, []⟩, .assignStatement, 3,
    [.node 0 rightSide.tree, .token 1 ⟨0, [1]⟩ (.punctuation .equals), .node 2 rightSide.tree]⟩

/-- The variable `x` below the lvalue that is replaced is not asked about. -/
theorem asked_of_leftByRight :
    (empty.add 0 assignmentTree).Holds (.top assignmentTree) ∧
    ((Node.top assignmentTree).transform 1 leftByRight).result = .ok (.top mirroredTree) ∧
    (((Node.top assignmentTree).transform 1 leftByRight).asked.map fun asked => asked.node.path) =
      [[], [0], [2]] ∧
    ((Node.top assignmentTree).transform 1 leftByRight).asked.map Consultation.node =
      ((Node.top assignmentTree).walk.rest
        (WalkEvent.enters fun below => (leftByRight below).replaces)).1.filterMap
          WalkEvent.entered? ∧
    ((Node.top assignmentTree).transform 1 leftByRight).trace.map TraceLine.message =
      ["replacing Lvalue@0 with IdentifierVariable"] := by
  have hholds : (empty.add 0 assignmentTree).Holds (.top assignmentTree) :=
    ⟨assignmentTree, .head _, .refl _⟩
  have hok : ((Node.top assignmentTree).transform 1 leftByRight).result =
      .ok (.top mirroredTree) := rfl
  exact ⟨hholds, hok, rfl, (hholds.asked_eq_entered hok).1, by rfl⟩

end Forest

end LosslessTree
