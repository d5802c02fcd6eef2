import LosslessTree.Proofs.Provenance
import LosslessTree.Proofs.Transform.Renewed

/-!
# Where the trees of a transformation come from

A transformation makes trees that are laid out, and gives a tree that it makes the identity of its
place in the result. Whether a child has changed is decided by identities alone; since these stand
for trees, a child that is not put into the copy has not changed at all.

## Main definitions

* `Node.Transformable`: a node and a rule out of which a transformation makes a sound tree.

## Main results

* `Node.Transformable.laidOut_madeBy`: the new tree of a node is laid out, and comes from the
  transformation.
* `Node.Transformable.exists_renewed`: a node that is kept has its children renewed, and nothing is
  lost by comparing identities.
-/

namespace LosslessTree.Node

variable {kept : Tree → Prop} {origin : Nat} {rule : Node → Answer} {node : Node}
  {position : List Nat}

/-- The node stands in an old tree, and the trees that the rule puts in below it are laid out and
either old or made for the place where they are put; places are counted from the place `position`
of the node. -/
structure Transformable (kept : Tree → Prop) (origin : Nat) (rule : Node → Answer) (node : Node)
    (position : List Nat) : Prop where
  old : kept node.tree
  laidOut : node.tree.LaidOut
  replaces : ∀ below replacement place, node.Within below → below.path = node.path ++ place →
    rule below = .replace replacement →
      replacement.tree.LaidOut ∧ replacement.tree.MadeBy kept ⟨origin, position ++ place⟩

namespace Transformable

theorem of_mem_children (h : node.Transformable kept origin rule position)
    (hclosed : ClosedBelow kept) {child : Node} {index : Nat} (hchild : child ∈ node.children)
    (hpath : child.path = node.path ++ [index]) :
    child.Transformable kept origin rule (position ++ [index]) where
  old := by
    obtain ⟨_, _, _, hget, rfl⟩ := mem_children_iff.1 hchild
    exact hclosed h.old (List.mem_of_getElem? hget)
  laidOut := (Within.of_mem_children hchild).laidOut h.laidOut
  replaces below replacement place hbelow hplace hanswer := by
    have hall := h.replaces below replacement (index :: place) (.head hchild hbelow)
      (by simp [hplace, hpath]) hanswer
    simpa using hall

/-- Below its own index, a child is ready like its node. -/
theorem child (h : node.Transformable kept origin rule position) (hclosed : ClosedBelow kept)
    {child : Node} (hchild : child ∈ node.children) :
    child.Transformable kept origin rule (position ++ [child.index]) :=
  h.of_mem_children hclosed hchild (path_eq_of_mem_children hchild)

/-- **The new tree of a node is laid out, and comes from the transformation.** -/
theorem laidOut_madeBy (h : node.Transformable kept origin rule position)
    (hdistinct : Distinct kept origin) {tree : Tree}
    (hok : node.renewed origin rule position = .ok tree) :
    tree.LaidOut ∧ tree.MadeBy kept ⟨origin, position⟩ := by
  induction node using Node.induction generalizing position tree with
  | step node ih =>
    cases hanswer : rule node with
    | replace replacement =>
      rw [renewed_of_replace hanswer] at hok
      cases hok
      simpa using h.replaces node replacement [] (.refl node) (by simp) hanswer
    | keep =>
      have hid (child : Node) (hchild : child ∈ node.children) (tree : Tree)
          (hok : child.renewed origin rule (position ++ [child.index]) = .ok tree)
          (hsame : tree.id = child.tree.id) : tree = child.tree := by
        have hready := h.of_mem_children hdistinct.closed hchild (path_eq_of_mem_children hchild)
        exact hdistinct.eq_of_madeBy (ih child hchild hready hok).2 hready.old hsame
      obtain ⟨children, hall, hfits, hdraft, hwhich⟩ :=
        exists_renewed_children hanswer h.laidOut hid hok
      have hbelow (index offset : Nat) (sub : Tree)
          (hget : children[index]? = some (.node offset sub)) :
          sub.LaidOut ∧ sub.MadeBy kept ⟨origin, position ++ [index]⟩ := by
        obtain ⟨child, hchild, hpath, -, hrenewed⟩ := exists_of_renews hall hget
        exact ih child hchild (h.of_mem_children hdistinct.closed hchild hpath) hrenewed
      constructor
      · rw [← tree.toTree_toDraft, hdraft]
        refine Tree.LaidOut.ofChildren hfits (fun hmem => ?_) tree.id node.kind
        obtain ⟨index, hget⟩ := List.mem_iff_getElem?.1 hmem
        exact (hbelow _ _ _ hget).1
      · rcases hwhich with rfl | hnew
        · exact .keep h.old
        · rw [← hnew]
          refine .make fun {index offset sub} hget => ?_
          have hchildren : tree.children = place 0 children := congrArg Draft.children hdraft
          rw [hchildren] at hget
          obtain ⟨old, hold⟩ := exists_getElem?_of_place hget
          rw [hnew]
          exact (hbelow _ _ _ hold).2

/-- **A node that is kept has its children renewed**: a new tree with the identity of the old one is
the old one, so that no change is overlooked. -/
theorem exists_renewed (h : node.Transformable kept origin rule position)
    (hdistinct : Distinct kept origin) (hanswer : rule node = .keep) {tree : Tree}
    (hok : node.renewed origin rule position = .ok tree) :
    ∃ children, List.Forall₂ (Renews origin rule position) node.parts children ∧
      childrenSize children < wordSize ∧ tree.toDraft = .ofChildren node.kind children := by
  have hid (child : Node) (hchild : child ∈ node.children) (tree : Tree)
      (hok : child.renewed origin rule (position ++ [child.index]) = .ok tree)
      (hsame : tree.id = child.tree.id) : tree = child.tree := by
    have hready := h.of_mem_children hdistinct.closed hchild (path_eq_of_mem_children hchild)
    exact hdistinct.eq_of_madeBy (hready.laidOut_madeBy hdistinct hok).2 hready.old hsame
  obtain ⟨children, hall, hfits, hdraft, -⟩ := exists_renewed_children hanswer h.laidOut hid hok
  exact ⟨children, hall, hfits, hdraft⟩

end Transformable

end LosslessTree.Node
