import LosslessTree.Proofs.Builder.Step
import LosslessTree.Proofs.Provenance

/-!
# Identities given by a builder

A builder gives every node the identity of its place when the node is started, before it is known
what comes inside and behind it. When a node is closed it is appended to the node around it, and it
ends up at that very place.

## Main definitions

* `OpenNode.Made`, `StackMade`: the open nodes, and what was closed inside them, have the identities
  of their places.
* `Builder.offer`: events offered one after the other, whether they are refused or not.

## Main results

* `Builder.Sound.offer`, `Builder.Sound.stackMade_offer`: the state of a builder after any events.
* `Builder.laidOut_madeBy_of_finish`: the finished tree is laid out, and every tree in it has the
  identity of its place.
-/

namespace LosslessTree

variable {kept : Tree → Prop}

/-- What was closed inside an open node has the identities of the places there. -/
def OpenNode.Made (kept : Tree → Prop) (node : OpenNode) : Prop :=
  ∀ ⦃index offset : Nat⦄ ⦃sub : Tree⦄, node.draft.children[index]? = some (.node offset sub) →
    sub.MadeBy kept (node.id.child index)

theorem OpenNode.Made.tree {node : OpenNode} (h : node.Made kept) : node.tree.MadeBy kept node.id :=
  show node.tree.MadeBy kept node.tree.id from .make fun hget => h hget

/-- A new child of an open node must have the identity of its place. -/
theorem OpenNode.Made.grow {node : OpenNode} {child : Child} (h : node.Made kept)
    (hchild : ∀ {offset sub}, child = .node offset sub → sub.MadeBy kept node.nextId) :
    (node.grow child).Made kept := by
  intro index offset sub hget
  simp only [OpenNode.grow] at hget ⊢
  rw [List.getElem?_append] at hget
  split_ifs at hget with hlt
  · exact h hget
  · obtain ⟨hzero, hmoved⟩ := List.getElem?_eq_some_iff.1 hget
    have hindex : index = node.draft.children.length := by
      simp only [List.length_singleton] at hzero
      omega
    subst hindex
    cases child with
    | token => simp [Child.moveTo] at hmoved
    | node old tree =>
      simp only [Child.moveTo, Nat.sub_self, List.getElem_cons_zero, Child.node.injEq] at hmoved
      obtain ⟨-, rfl⟩ := hmoved
      exact hchild rfl

/-- The identity of a node that is started inside the given open nodes. -/
def nextIdIn (origin : Nat) : List OpenNode → Ident
  | [] => ⟨origin, []⟩
  | innermost :: _ => innermost.nextId

/-- Open nodes, innermost first, each at the next place of the one around it. -/
def StackMade (kept : Tree → Prop) (origin : Nat) : List OpenNode → Prop
  | [] => True
  | innermost :: outer =>
    innermost.id = nextIdIn origin outer ∧ innermost.Made kept ∧ StackMade kept origin outer

namespace Builder

variable {builder after : Builder} {event : Event} {lines : List TraceLine}

theorem nextId_eq (builder : Builder) : builder.nextId = nextIdIn builder.origin builder.stack := by
  rcases builder with ⟨origin, _ | ⟨innermost, outer⟩, position, rootClosed⟩ <;> rfl

/-- Taking an event gives new nodes the identities of their places. -/
theorem Takes.stackMade (htakes : builder.Takes event after lines)
    (h : StackMade kept builder.origin builder.stack) :
    after.origin = builder.origin ∧ StackMade kept builder.origin after.stack := by
  cases htakes with
  | start kind hopen =>
    exact ⟨rfl, builder.nextId_eq, by simp [OpenNode.Made, Draft.empty], h⟩
  | push token hopen hstack hfits =>
    rw [hstack] at h
    exact ⟨rfl, h.1, h.2.1.grow (by rintro _ _ ⟨⟩), h.2.2⟩
  | closeRoot hopen hstack => exact ⟨rfl, h⟩
  | @closeInner innermost parent outer hopen hstack =>
    rw [hstack] at h
    obtain ⟨hid, hmade, hparent⟩ := h
    refine ⟨rfl, hparent.1, hparent.2.1.grow ?_, hparent.2.2⟩
    rintro _ _ ⟨⟩
    have htree := hmade.tree
    rwa [hid] at htree

/-- Offers events one after the other, going on after those that are refused. -/
def offer (builder : Builder) (events : List Event) : Builder :=
  events.foldl (fun b event => (b.step event).builder) builder

@[simp] theorem offer_cons (builder : Builder) (event : Event) (rest : List Event) :
    builder.offer (event :: rest) = (builder.step event).builder.offer rest :=
  rfl

/-- **Every builder is sound**, whatever it was offered. -/
theorem Sound.offer (h : builder.Sound) (events : List Event) : (builder.offer events).Sound := by
  induction events generalizing builder with
  | nil => exact h
  | cons event rest ih => exact ih (h.step event)

/-- The open nodes of a builder have the identities of their places, whatever it was offered. -/
theorem Sound.stackMade_offer (h : builder.Sound)
    (hmade : StackMade kept builder.origin builder.stack) (events : List Event) :
    (builder.offer events).origin = builder.origin ∧
      StackMade kept builder.origin (builder.offer events).stack := by
  induction events generalizing builder with
  | nil => exact ⟨rfl, hmade⟩
  | cons event rest ih =>
    have hnext := h.step event
    rw [offer_cons]
    rcases h.step_cases event with ⟨after, lines, htakes, hstep⟩ | ⟨-, error, hstep⟩
    · obtain ⟨horigin, hafter⟩ := htakes.stackMade hmade
      rw [hstep] at hnext ⊢
      rw [← horigin] at hafter ⊢
      exact ih hnext hafter
    · rw [hstep] at hnext ⊢
      exact ih hnext hmade

/-- **A finished tree is laid out, and every tree in it has the identity of its place.** -/
theorem laidOut_madeBy_of_finish {origin : Nat} {events : List Event} {root : Node}
    (h : ((new origin).offer events).finish = .ok root) :
    ∃ tree, root = .top tree ∧ tree.LaidOut ∧ tree.MadeBy kept ⟨origin, []⟩ := by
  obtain ⟨node, hstack, rfl⟩ := finish_eq_ok_iff.1 h
  have hsound := (sound_new origin).offer events
  have hmade := ((sound_new origin).stackMade_offer (show StackMade kept origin [] from trivial)
    events).2
  rw [hstack] at hmade
  obtain ⟨hid, hnode, -⟩ := hmade
  refine ⟨node.tree, rfl, hsound.laidOut node (by simp [hstack]) node.id, ?_⟩
  have htree := hnode.tree
  rwa [hid] at htree

end Builder

end LosslessTree
