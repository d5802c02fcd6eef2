import LosslessTree.Proofs.Identity
import LosslessTree.Proofs.Walk.Tour
import LosslessTree.View.Element

/-!
# Same nodes read alike

The test whether two nodes are the same looks at offsets, indices and identities, never at what a
tree contains. It is an equivalence, because it compares addresses, and the same holds of tokens and
typed views. That same nodes can be exchanged for one another in all readings is another matter: it
needs that identities stand for trees, in all trees of a run.

In the other direction, what is read of a node tells which node it is, although trees are shared: a
walk begins at the node itself, and parts know the node above them.

## Main definitions

* `Node.address`: what the test compares, here and all the way up.
* `Node.ReadsAlike`: nothing that is read of two nodes tells them apart.

## Main results

* `Node.beq_iff_address_eq`: the test compares addresses.
* `Node.beq_of_walkEvents_beq`, `Node.beq_of_parts_beq`: walks and parts tell which node they are
  of.
* `Forest.Sound.readsAlike_of_beq`: same nodes of a run read alike.
* `Forest.Reachable.beq_congruence`: being the same is an equivalence, and a congruence for reading.
-/

namespace LosslessTree

/-! ### Equivalences -/

/-- A test that compares keys is an equivalence. -/
theorem equivBEq_of_key {α : Type} {β : Type} [BEq α] (key : α → β)
    (h : ∀ a b : α, (a == b) = true ↔ key a = key b) : EquivBEq α where
  rfl := (h _ _).2 rfl
  symm hab := (h _ _).2 ((h _ _).1 hab).symm
  trans hab hbc := (h _ _).2 (((h _ _).1 hab).trans ((h _ _).1 hbc))

namespace Node

/-- What the test for being the same compares: offset, index and identity, here and all the way
up. -/
def address : Node → List (Nat × Nat × Ident)
  | top tree => [(0, 0, tree.id)]
  | inner parent index offset tree => (offset, index, tree.id) :: parent.address

theorem address_ne_nil (node : Node) : node.address ≠ [] := by
  cases node <;> simp [address]

/-- **The test compares addresses.** -/
theorem beq_iff_address_eq :
    (node other : Node) → ((node == other) = true ↔ node.address = other.address)
  | top tree, top tree' => by
    change (tree.id == tree'.id) = true ↔ _
    simp [address]
  | top tree, inner parent index offset tree' => by
    have hne := parent.address_ne_nil
    exact iff_of_false Bool.false_ne_true (by simp [address, hne.symm])
  | inner parent index offset tree, top tree' => by
    have hne := parent.address_ne_nil
    exact iff_of_false Bool.false_ne_true (by simp [address, hne])
  | inner parent index offset tree, inner parent' index' offset' tree' => by
    have ih := beq_iff_address_eq parent parent'
    change (offset == offset' && index == index' && tree.id == tree'.id && parent == parent') =
      true ↔ _
    simp [address, ih, and_assoc]

end Node

instance : EquivBEq Node :=
  equivBEq_of_key Node.address Node.beq_iff_address_eq

instance : EquivBEq Leaf := by
  refine equivBEq_of_key (fun leaf => (leaf.index, leaf.id, leaf.parent.address)) fun a b => ?_
  change (a.index == b.index && a.id == b.id && a.parent == b.parent) = true ↔ _
  simp [Node.beq_iff_address_eq, and_assoc]

instance (kind : NodeKind) : EquivBEq (View kind) :=
  equivBEq_of_key (fun view => view.raw.address) fun a b => Node.beq_iff_address_eq a.raw b.raw

/-- Two elements are the same exactly if they are of one kind and their nodes are the same. -/
theorem Element.beq_iff (a b : Element) :
    (a == b) = true ↔ a.raw.kind = b.raw.kind ∧ (a.raw == b.raw) = true := by
  change a.same b = true ↔ _
  rcases a with view | view | view <;> rcases b with other | other | other <;>
    simp [same, raw, view.kind_eq, other.kind_eq, BEq.beq]

instance : EquivBEq Element := by
  refine equivBEq_of_key (fun element => (element.raw.kind, element.raw.address)) fun a b => ?_
  rw [Element.beq_iff, Node.beq_iff_address_eq, Prod.mk.injEq]

instance : ReflBEq Part where
  rfl {part} := by
    cases part with
    | node node => exact node.same_self
    | leaf leaf => exact leaf.same_self

/-! ### What is read of a node tells which node it is -/

namespace Node

variable {node other : Node}

/-- A walk begins by entering the node where it starts. -/
theorem exists_walkEvents_eq (node : Node) : ∃ rest, node.walkEvents = .enter node :: rest := by
  have hdue : node.walk.due? = some (.enter node) := rfl
  rw [walkEvents, Walk.rest_of_due?_eq_some _ hdue]
  exact ⟨_, rfl⟩

/-- **The events of a walk tell where it started.** -/
theorem beq_of_walkEvents_beq (h : (node.walkEvents == other.walkEvents) = true) :
    (node == other) = true := by
  obtain ⟨rest, hevents⟩ := node.exists_walkEvents_eq
  obtain ⟨rest', hevents'⟩ := other.exists_walkEvents_eq
  rw [hevents, hevents', List.cons_beq_cons] at h
  exact (Bool.and_eq_true_iff.1 h).1

/-- Parts that are the same stand below the same node. -/
theorem beq_of_part_beq {index index' : Nat} {child child' : Child}
    (h : (node.part index child == other.part index' child') = true) : (node == other) = true := by
  cases child with
  | token offset id token =>
    cases child' with
    | token offset' id' token' => exact (Bool.and_eq_true_iff.1 h).2
    | node offset' tree' => cases h
  | node offset tree =>
    cases child' with
    | token offset' id' token' => cases h
    | node offset' tree' => exact (Bool.and_eq_true_iff.1 h).2

/-- **The parts of a node tell which node it is**, unless there are none. -/
theorem beq_of_parts_beq (h : (node.parts == other.parts) = true) :
    (node == other) = true ∨ node.parts = [] ∧ other.parts = [] := by
  rw [parts_eq_partsFrom, parts_eq_partsFrom] at h ⊢
  cases hchildren : node.tree.children with
  | nil =>
    cases hchildren' : other.tree.children with
    | nil => exact .inr ⟨rfl, rfl⟩
    | cons child' rest' =>
      rw [hchildren, hchildren'] at h
      cases h
  | cons child rest =>
    cases hchildren' : other.tree.children with
    | nil =>
      rw [hchildren, hchildren'] at h
      cases h
    | cons child' rest' =>
      rw [hchildren, hchildren', partsFrom_cons, partsFrom_cons, List.cons_beq_cons] at h
      exact .inl (beq_of_part_beq (Bool.and_eq_true_iff.1 h).1)

/-! ### Same nodes read alike -/

/-- Nothing that is read of two nodes tells them apart: neither what they say of themselves, nor
what is found from there on. -/
structure ReadsAlike (node other : Node) : Prop where
  kind : node.kind = other.kind
  offset : node.offset = other.offset
  byteLen : node.byteLen = other.byteLen
  text : node.text = other.text
  parts : (node.parts == other.parts) = true
  parent? : (node.parent? == other.parent?) = true
  root : (node.root == other.root) = true
  nextSibling? : (node.nextSibling? == other.nextSibling?) = true
  firstChild? : (node.firstChild? == other.firstChild?) = true
  firstToken? : (node.firstToken? == other.firstToken?) = true
  lastToken? : (node.lastToken? == other.lastToken?) = true
  walkEvents : (node.walkEvents == other.walkEvents) = true

theorem ReadsAlike.refl (node : Node) : node.ReadsAlike node :=
  ⟨rfl, rfl, rfl, rfl, BEq.rfl, BEq.rfl, BEq.rfl, BEq.rfl, BEq.rfl, BEq.rfl, BEq.rfl, BEq.rfl⟩

end Node

namespace Forest

variable {forest : Forest} {node other : Node}

/-- **Same nodes of a run read alike**: identities stand for trees, so that nodes with the same
address have the same content, also if they were found in different ways. -/
theorem Sound.readsAlike_of_beq (h : forest.Sound) (hnode : forest.Holds node)
    (hother : forest.Holds other) (hsame : (node == other) = true) : node.ReadsAlike other := by
  rw [(h.beq_iff_eq hnode hother).1 hsame]
  exact .refl other

/-- **Being the same is an equivalence and a congruence for reading.** For nodes, tokens and typed
views the test is reflexive, symmetric and transitive. Of nodes that a run can get hold of, same
ones read alike; nodes whose walks have the same events are the same; and nodes whose parts are the
same are the same, or have no parts. -/
theorem Reachable.beq_congruence (h : forest.Reachable) :
    EquivBEq Node ∧ EquivBEq Leaf ∧ (∀ kind, EquivBEq (View kind)) ∧ EquivBEq Element ∧
    ∀ node other, forest.Obtains (.node node) → forest.Obtains (.node other) →
      ((node == other) = true → node.ReadsAlike other) ∧
      ((node.walkEvents == other.walkEvents) = true → (node == other) = true) ∧
      ((node.parts == other.parts) = true →
        (node == other) = true ∨ node.parts = [] ∧ other.parts = []) := by
  refine ⟨inferInstance, inferInstance, fun kind => inferInstance, inferInstance,
    fun node other hnode hother => ⟨fun hsame => ?_, Node.beq_of_walkEvents_beq,
      Node.beq_of_parts_beq⟩⟩
  exact h.sound.readsAlike_of_beq hnode.reaches hother.reaches hsame

/-- The two variables of `ü .ü ` share their tree, and yet neither their walks nor their parts are
the same; found as the first child of the root, the first variable reads as before. -/
theorem variables_of_sharing_read_apart :
    ((empty.add 0 dottedTree).add 1 sharingTree).Reachable ∧
    (variableAt sharingTree 0 0).tree.id = (variableAt sharingTree 2 4).tree.id ∧
    ((variableAt sharingTree 0 0).walkEvents == (variableAt sharingTree 2 4).walkEvents) = false ∧
    ((variableAt sharingTree 0 0).parts == (variableAt sharingTree 2 4).parts) = false ∧
    ∃ first, (Node.top sharingTree).firstChild? = some first ∧
      first.ReadsAlike (variableAt sharingTree 0 0) := by
  have hmem : sharingTree ∈ ((empty.add 0 dottedTree).add 1 sharingTree).trees := .head _
  have hfirst : ((empty.add 0 dottedTree).add 1 sharingTree).Obtains
      (.node (variableAt sharingTree 0 0)) := .part (.root hmem) (.head _)
  have hsecond : ((empty.add 0 dottedTree).add 1 sharingTree).Obtains
      (.node (variableAt sharingTree 2 4)) := .part (.root hmem) (.tail _ (.tail _ (.head _)))
  have hdiffer : ¬(variableAt sharingTree 0 0 == variableAt sharingTree 2 4) = true := by decide
  obtain ⟨-, -, -, -, hread⟩ := reachable_sharing.beq_congruence
  obtain ⟨-, hwalks, hparts⟩ := hread _ _ hfirst hsecond
  refine ⟨reachable_sharing, rfl, Bool.eq_false_iff.2 fun hsame => hdiffer (hwalks hsame),
    Bool.eq_false_iff.2 fun hsame => ?_, variableAt sharingTree 0 0, rfl,
    (hread _ _ hfirst hfirst).1 BEq.rfl⟩
  rcases hparts hsame with hsame | ⟨hnone, -⟩
  · exact hdiffer hsame
  · cases hnone

end Forest

end LosslessTree
