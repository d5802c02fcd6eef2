import Mathlib.Data.List.Flatten
import LosslessTree.Proofs.Walk.Tour

/-!
# The nodes that a walk enters

Of a walk that skips some subtrees, the events that enter a node say which nodes it comes to: those
that have no skipped node above them. It comes to each of them once, to a node before it comes to
the nodes below, and otherwise in textual order. Whatever goes through a tree from the top down and
stops at some nodes can be compared with this.

## Main definitions

* `WalkEvent.entered?`: the node that an event enters.
* `Node.entered`: the nodes that the tour of a subtree enters.

## Main results

* `Node.entered_eq`: a node is entered first, and then the nodes of its children.
* `Node.mem_entered_iff`: the nodes that are entered are those without a skipped node above.
* `Node.pairwise_entered`: no node is entered twice, or after a node below it.
* `Node.mem_entered_iff_of_mem`: a node that is entered is entered with its whole tour.
-/

namespace LosslessTree

/-- The node that an event enters. -/
def WalkEvent.entered? : WalkEvent → Option Node
  | enter n => some n
  | leave _ => none

namespace Node

variable {start node below : Node} {skip : Node → Bool}

/-- The nodes that the tour of a subtree enters, in order. -/
def entered (skip : Node → Bool) (node : Node) : List Node :=
  (node.tour skip).filterMap WalkEvent.entered?

theorem entered_eq (skip : Node → Bool) (node : Node) :
    node.entered skip =
      node :: if skip node then [] else node.children.flatMap (entered skip) := by
  rw [entered, tour_eq]
  split_ifs with hskip
  · rfl
  · have hbelow : (node.children.flatMap (tour skip) ++ [WalkEvent.leave node]).filterMap
        WalkEvent.entered? = node.children.flatMap (entered skip) := by
      rw [List.filterMap_append, List.filterMap_flatMap]
      exact List.append_nil _
    exact congrArg (node :: ·) hbelow

/-- A node is entered if it is the first one, or if it is entered below a child and the first one
is not skipped. -/
theorem mem_entered_cases :
    below ∈ node.entered skip ↔
      below = node ∨ skip node = false ∧ ∃ child ∈ node.children, below ∈ child.entered skip := by
  rw [entered_eq, List.mem_cons]
  cases hskip : skip node <;> simp

/-- Only nodes of the subtree are entered. -/
theorem within_of_mem_entered (h : below ∈ node.entered skip) : node.Within below := by
  induction node using Node.induction with
  | step node ih =>
    rcases mem_entered_cases.1 h with rfl | ⟨-, child, hchild, hbelow⟩
    · exact .refl _
    · exact .head hchild (ih child hchild hbelow)

/-- **The nodes that are entered** are the nodes of the subtree above which no node of it is
skipped. -/
theorem mem_entered_iff :
    below ∈ node.entered skip ↔ node.Within below ∧
      ∀ above, node.Within above → above.Within below → above ≠ below → skip above = false := by
  induction node using Node.induction with
  | step node ih =>
    rw [mem_entered_cases]
    constructor
    · rintro (rfl | ⟨hskip, child, hchild, hbelow⟩)
      · refine ⟨.refl below, fun above habove hback hne => ?_⟩
        exact absurd (habove.antisymm hback) hne
      · obtain ⟨hwithin, hnone⟩ := (ih child hchild).1 hbelow
        refine ⟨.head hchild hwithin, fun above habove hback hne => ?_⟩
        rcases habove.eq_or_exists_child with rfl | ⟨other, hother, hunder⟩
        · exact hskip
        · obtain rfl := eq_of_within_children hother hchild (hunder.trans hback) hwithin
          exact hnone above hunder hback hne
    · rintro ⟨hwithin, hnone⟩
      rcases hwithin.eq_or_exists_child with heq | ⟨child, hchild, hunder⟩
      · exact .inl heq
      · refine .inr ⟨?_, child, hchild, (ih child hchild).2 ⟨hunder, fun above habove => ?_⟩⟩
        · exact hnone node (.refl node) hwithin (Within.ne_of_mem_children hchild hunder)
        · exact hnone above (.head hchild habove)

/-- **No node is entered twice, or after a node below it.** -/
theorem pairwise_entered (skip : Node → Bool) (node : Node) :
    (node.entered skip).Pairwise fun before after => ¬after.Within before := by
  induction node using Node.induction with
  | step node ih =>
    have hbelow : (node.children.flatMap (entered skip)).Pairwise fun before after =>
        ¬after.Within before := by
      refine List.pairwise_flatMap.2 ⟨fun child hchild => ih child hchild, ?_⟩
      refine node.pairwise_index_children.imp_of_mem fun {child other} hchild hother hindex => ?_
      intro before hbefore after hafter hback
      have hwithin := within_of_mem_entered hbefore
      have hwithin' := (within_of_mem_entered hafter).trans hback
      exact hindex (congrArg index (eq_of_within_children hchild hother hwithin hwithin'))
    rw [entered_eq, List.pairwise_cons]
    split_ifs with hskip
    · exact ⟨by simp, .nil⟩
    · refine ⟨fun after hafter hback => ?_, hbelow⟩
      obtain ⟨child, hchild, hmem⟩ := List.mem_flatMap.1 hafter
      exact Within.not_parent hchild ((within_of_mem_entered hmem).trans hback)

/-- What is entered with skips is entered without, in the same order. -/
theorem entered_sublist (skip : Node → Bool) (node : Node) :
    (node.entered skip).Sublist (node.entered fun _ => false) := by
  induction node using Node.induction with
  | step node ih =>
    rw [entered_eq, entered_eq, if_neg Bool.false_ne_true]
    refine .cons_cons node ?_
    split_ifs
    · exact List.nil_sublist _
    · exact .flatMap_right node.children fun child hchild => ih child hchild

/-- **A node that is entered is entered with its whole tour**: what is entered below it is what its
own tour enters. -/
theorem mem_entered_iff_of_mem (h : node ∈ start.entered skip) :
    below ∈ node.entered skip ↔ below ∈ start.entered skip ∧ node.Within below := by
  obtain ⟨hstart, hnone⟩ := mem_entered_iff.1 h
  rw [mem_entered_iff, mem_entered_iff]
  constructor
  · rintro ⟨hbelow, hunder⟩
    refine ⟨⟨hstart.trans hbelow, fun above habove hback hne => ?_⟩, hbelow⟩
    -- A node above `below` stands above `node` or in its subtree.
    rcases Within.total hback hbelow with habove' | hnode
    · by_cases heq : above = node
      · subst heq
        exact hunder above (.refl above) hback hne
      · exact hnone above habove habove' heq
    · exact hunder above hnode hback hne
  · rintro ⟨⟨-, hall⟩, hbelow⟩
    exact ⟨hbelow, fun above habove => hall above (hstart.trans habove)⟩

end Node

end LosslessTree
