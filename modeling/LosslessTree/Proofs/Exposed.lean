import LosslessTree.Proofs.Listing

/-!
# Listings that stop at some nodes

Whoever goes through a subtree in textual order and does not go on below some of its nodes comes to
the parts that no such node hides. These are a portion of the listing of the subtree, in the same
order: everything strictly below a node at which the listing stops is left out, and nothing else.

## Main definitions

* `Node.exposed`: the parts of a subtree, listed without what stands below some of its nodes.
* `Node.exposedOf`: the portion of such a listing that a part below a node contributes.

## Main results

* `Node.exposed_sublist`: the parts are listed in textual order.
* `Node.mem_exposed_iff`: what is listed is what stands strictly below no node that hides it.
* `Node.exposed_of_forall`: without such nodes the whole subtree is listed.
-/

namespace LosslessTree

namespace Node

variable {stop : Node → Bool} {node child : Node} {part : Part}

/-- The listing found below a node, and a token itself. -/
def exposedBranch : Branch (List Part) → List Part
  | .leaf leaf => [.leaf leaf]
  | .node _ exposed => exposed ()

/-- The parts of a subtree in textual order, the node itself first, without what stands strictly
below a node at which `stop` says so. -/
def exposed (stop : Node → Bool) (node : Node) : List Part :=
  node.fold fun here branches =>
    .node here :: if stop here then [] else branches.flatMap exposedBranch

/-- What is listed of a part: its subtree as far as it is exposed, or the token itself. -/
def exposedOf (stop : Node → Bool) : Part → List Part :=
  Part.elim (exposed stop) fun leaf => [.leaf leaf]

theorem exposed_eq (stop : Node → Bool) (node : Node) :
    node.exposed stop =
      .node node :: if stop node then [] else node.parts.flatMap (exposedOf stop) := by
  unfold exposed
  rw [fold_eq, List.flatMap_map]
  congr 3
  funext part
  cases part <;> rfl

/-- Without a node to stop at, the whole subtree is listed. -/
theorem exposed_of_forall (h : ∀ node, stop node = false) (node : Node) :
    node.exposed stop = node.allParts := by
  induction node using Node.induction with
  | step node ih =>
    rw [exposed_eq, allParts_eq_cons, h, if_neg Bool.false_ne_true]
    refine congrArg _ (List.flatMap_congr fun part hpart => ?_)
    cases part with
    | leaf leaf => rfl
    | node child => exact ih child (mem_children.2 hpart)

theorem exposedOf_of_forall (h : ∀ node, stop node = false) : exposedOf stop = listed := by
  funext part
  cases part with
  | leaf leaf => rfl
  | node child => exact exposed_of_forall h child

/-- **What is exposed is listed in textual order**, as in the whole listing. -/
theorem exposed_sublist (stop : Node → Bool) (node : Node) :
    (node.exposed stop).Sublist node.allParts := by
  induction node using Node.induction with
  | step node ih =>
    rw [exposed_eq, allParts_eq_cons]
    refine .cons_cons _ ?_
    split_ifs
    · exact List.nil_sublist _
    · refine .flatMap_right node.parts fun part hpart => ?_
      cases part with
      | leaf leaf => exact .refl _
      | node child => exact ih child (mem_children.2 hpart)

/-- Two children of a node from which one part is reached are one child. -/
theorem eq_of_reaches_children {other : Node} (hchild : child ∈ node.children)
    (hother : other ∈ node.children) (h : child.Reaches part) (hpart : other.Reaches part) :
    child = other := by
  cases part with
  | node below => exact eq_of_within_children hchild hother h hpart
  | leaf leaf =>
    obtain ⟨above, habove, hleaf⟩ := h
    obtain ⟨above', habove', hleaf'⟩ := hpart
    rw [← (parent_eq_of_mem_parts hleaf).1] at habove
    rw [← (parent_eq_of_mem_parts hleaf').1] at habove'
    exact eq_of_within_children hchild hother habove habove'

/-- Nothing of a subtree reaches a token directly below its top, except the top itself. -/
theorem eq_of_reaches_leaf {above : Node} {leaf : Leaf} (hleaf : .leaf leaf ∈ node.parts)
    (habove : node.Within above) (h : above.Reaches (.leaf leaf)) : above = node := by
  obtain ⟨parent, hparent, hmem⟩ := h
  obtain rfl : node = parent := by
    rw [← (parent_eq_of_mem_parts hleaf).1, (parent_eq_of_mem_parts hmem).1]
  exact habove.antisymm hparent

/-- No node of the subtree of `node` hides the part: none at which the listing stops stands strictly
above it. -/
def Exposes (stop : Node → Bool) (node : Node) (part : Part) : Prop :=
  ∀ above, node.Within above → stop above = true → above.Reaches part → part = .node above

/-- A part is hidden by the top of a subtree, or by a node of the child below which it stands. -/
theorem exposes_of_child (hstop : stop node = false) (hchild : child ∈ node.children)
    (hreaches : child.Reaches part) (h : child.Exposes stop part) : node.Exposes stop part := by
  intro above habove hat hpart
  rcases habove.eq_or_exists_child with rfl | ⟨other, hother, hunder⟩
  · rw [hstop] at hat
    cases hat
  · obtain rfl := eq_of_reaches_children hother hchild (hunder.reaches hpart) hreaches
    exact h above hunder hat hpart

/-- What is listed is hidden by nothing. -/
theorem exposes_of_mem_exposed (h : part ∈ node.exposed stop) : node.Exposes stop part := by
  induction node using Node.induction with
  | step node ih =>
    rw [exposed_eq] at h
    rcases List.mem_cons.1 h with rfl | hbelow
    · intro above habove _ hback
      rw [habove.antisymm hback]
    · split_ifs at hbelow with hstop
      · cases hbelow
      · rw [Bool.not_eq_true] at hstop
        obtain ⟨below, hparts, hpart⟩ := List.mem_flatMap.1 hbelow
        cases below with
        | node child =>
          have hchild := mem_children.2 hparts
          have hreaches := mem_allParts_iff.1 ((child.exposed_sublist stop).subset hpart)
          exact exposes_of_child hstop hchild hreaches (ih child hchild hpart)
        | leaf leaf =>
          obtain rfl := List.mem_singleton.1 hpart
          intro above habove hat hback
          rw [eq_of_reaches_leaf hparts habove hback, hstop] at hat
          cases hat

/-- What is hidden by nothing is listed. -/
theorem mem_exposed_of_exposes (hreaches : node.Reaches part) (h : node.Exposes stop part) :
    part ∈ node.exposed stop := by
  induction node using Node.induction with
  | step node ih =>
    have hlisted := mem_allParts_iff.2 hreaches
    rw [allParts_eq_cons] at hlisted
    rw [exposed_eq]
    rcases List.mem_cons.1 hlisted with rfl | hbelow
    · exact .head _
    · split_ifs with hstop
      · rw [h node (.refl node) hstop hreaches]
        exact .head _
      · obtain ⟨below, hparts, hpart⟩ := List.mem_flatMap.1 hbelow
        refine .tail _ (List.mem_flatMap.2 ⟨below, hparts, ?_⟩)
        cases below with
        | leaf leaf => exact hpart
        | node child =>
          have hchild := mem_children.2 hparts
          exact ih child hchild (mem_allParts_iff.1 hpart)
            fun above habove => h above (.head hchild habove)

/-- **What is exposed**: the parts of the subtree that stand strictly below no node at which the
listing stops. -/
theorem mem_exposed_iff :
    part ∈ node.exposed stop ↔ node.Reaches part ∧ node.Exposes stop part := by
  constructor
  · intro hmem
    exact ⟨mem_allParts_iff.1 ((node.exposed_sublist stop).subset hmem),
      exposes_of_mem_exposed hmem⟩
  · rintro ⟨hreaches, hexposes⟩
    exact mem_exposed_of_exposes hreaches hexposes

end Node

end LosslessTree
