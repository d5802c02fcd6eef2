import LosslessTree.Proofs.Within

/-!
# Where trees come from

An operation that makes a tree either keeps a tree that was there before, identity included, or
makes a new one and gives it the identity of its place in the result. So two trees that were made by
one operation are told apart by their places, and a new tree is told apart from all older ones by
the number of the operation. This is what makes identities stand for trees.

## Main definitions

* `Tree.MadeBy kept id`: the tree was kept, or made as the tree with identity `id`, and so on below.
* `Distinct kept origin`: identities tell the old trees apart, and the number of the operation is
  new.

## Main results

* `Tree.MadeBy.of_within`: the trees below a tree come from the same operation.
* `Distinct.eq_of_madeBy`, `Distinct.eq_of_within`: identities stand for trees, the new ones
  included.
-/

namespace LosslessTree

/-- An operation that put the tree at the place of `id` either kept it as it was, or made it with
that identity, out of trees for which the same holds at their own places. -/
inductive Tree.MadeBy (kept : Tree → Prop) : Ident → Tree → Prop
  | keep {id : Ident} {tree : Tree} (h : kept tree) : MadeBy kept id tree
  | make {tree : Tree} (below : ∀ {index offset sub},
      tree.children[index]? = some (.node offset sub) → MadeBy kept (tree.id.child index) sub) :
      MadeBy kept tree.id tree

/-- A set of trees that holds every tree below its members. -/
def ClosedBelow (kept : Tree → Prop) : Prop :=
  ∀ ⦃tree offset sub⦄, kept tree → .node offset sub ∈ tree.children → kept sub

namespace Tree.MadeBy

variable {kept : Tree → Prop} {tree : Tree} {origin : Nat} {place : List Nat}

/-- The trees below a tree come from the same operation. -/
theorem of_within (h : tree.MadeBy kept ⟨origin, place⟩) (hkept : ClosedBelow kept) {node : Node}
    (hnode : (Node.top tree).Within node) :
    node.tree.MadeBy kept ⟨origin, place ++ node.path⟩ := by
  induction hnode with
  | refl => simpa using h
  | @tail parent child _ hchild ih =>
    obtain ⟨index, offset, sub, hget, rfl⟩ := Node.mem_children_iff.1 hchild
    generalize hid : (⟨origin, place ++ parent.path⟩ : Ident) = id at ih
    cases ih with
    | keep hparent => exact .keep (hkept hparent (List.mem_of_getElem? hget))
    | make hbelow =>
      have hmade := hbelow hget
      rw [← hid] at hmade
      simpa [Ident.child] using hmade

/-- A tree that was not kept has the identity of its place. -/
theorem kept_or_id_eq {id : Ident} (h : tree.MadeBy kept id) : kept tree ∨ tree.id = id := by
  cases h with
  | keep hkept => exact .inl hkept
  | make => exact .inr rfl

end Tree.MadeBy

/-- The trees that are there when an operation is about to make another one: they hold every tree
below them, their identities tell them apart, and the number of the operation is new. -/
structure Distinct (kept : Tree → Prop) (origin : Nat) : Prop where
  closed : ClosedBelow kept
  eq_of_id_eq : ∀ {tree other : Tree}, kept tree → kept other → tree.id = other.id → tree = other
  fresh : ∀ {tree : Tree}, kept tree → tree.id.origin ≠ origin

/-- **Identities stand for trees**: a tree of the operation with the identity of an old tree is that
tree. -/
theorem Distinct.eq_of_madeBy {kept : Tree → Prop} {origin : Nat} (h : Distinct kept origin)
    {tree old : Tree} {place : List Nat} (hmade : tree.MadeBy kept ⟨origin, place⟩)
    (hold : kept old) (hid : tree.id = old.id) : tree = old := by
  rcases hmade.kept_or_id_eq with hkept | hnew
  · exact h.eq_of_id_eq hkept hold hid
  · have horigin : old.id.origin = origin := by rw [← hid, hnew]
    exact absurd horigin (h.fresh hold)

/-- Two trees of one operation with the same identity are the same tree. -/
theorem Distinct.eq_of_within {kept : Tree → Prop} {origin : Nat} (h : Distinct kept origin)
    {tree : Tree} (hmade : tree.MadeBy kept ⟨origin, []⟩) {node other : Node}
    (hnode : (Node.top tree).Within node) (hother : (Node.top tree).Within other)
    (hid : node.tree.id = other.tree.id) : node.tree = other.tree := by
  have hmade₁ := hmade.of_within h.closed hnode
  have hmade₂ := hmade.of_within h.closed hother
  rcases hmade₁.kept_or_id_eq with hkept | hnew₁
  · exact (h.eq_of_madeBy hmade₂ hkept hid.symm).symm
  · rcases hmade₂.kept_or_id_eq with hkept | hnew₂
    · exact h.eq_of_madeBy hmade₁ hkept hid
    · have hpath : node.path = other.path := by
        rw [hnew₁, hnew₂] at hid
        simpa using hid
      rw [hnode.eq_of_path_eq hother hpath]

end LosslessTree
