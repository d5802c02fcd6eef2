import LosslessTree.Builder.Basic
import LosslessTree.Proofs.Stream

/-!
# What a builder does with an event

A builder keeps its open nodes laid out, and they are never longer than what was offered: so closing
a node cannot overflow, and a token is taken exactly if a node is open and the position still fits
a word after it. This file says once what taking an event does to a builder, and what is left of an
event that is refused. All that is known of builders follows from this.

## Main definitions

* `OpenNode.grow`: an open node with one child more.
* `Builder.Takes`: what taking an event does, with the trace lines written.
* `Builder.positionAfter`: the position after an event, be it taken or refused.
* `Builder.Sound`: what holds of the state of every builder.

## Main results

* `Builder.Sound.step_cases`: an event is taken, or it is refused and moves nothing but the
  position.
* `Builder.sound_new`, `Builder.Sound.step`: every builder is sound.
-/

namespace LosslessTree

/-- An open node with one child more, behind those that are there. -/
def OpenNode.grow (node : OpenNode) (child : Child) : OpenNode :=
  { node with
    draft := ⟨node.draft.kind, node.draft.byteLen + child.size,
      node.draft.children ++ [child.moveTo node.draft.byteLen]⟩ }

/-- Appending to an open node succeeds exactly when the new length fits a word. -/
theorem OpenNode.yields_push (node : OpenNode) (child : Child) :
    Yields (node.push child) (node.draft.byteLen + child.size < wordSize) (node.grow child) :=
  (node.draft.yields_push child).map fun draft => ({ node with draft } : OpenNode)

/-- An open node that grows within a word stays laid out. -/
theorem Draft.LaidOut.grow {node : OpenNode} {child : Child} (h : node.draft.LaidOut)
    (hfits : node.draft.byteLen + child.size < wordSize)
    (hchild : ∀ {offset sub}, child = .node offset sub → sub.LaidOut) :
    (node.grow child).draft.LaidOut :=
  h.push hchild ((node.draft.yields_push child).eq_ok hfits)

/-- The total length of open nodes, as far as they go. -/
def stackSize : List OpenNode → Nat
  | [] => 0
  | innermost :: outer => innermost.draft.byteLen + stackSize outer

namespace Builder

/-- What taking an event does to a builder, with the trace lines written. -/
inductive Takes (builder : Builder) : Event → Builder → List TraceLine → Prop
  | start (kind : NodeKind) (hopen : builder.rootClosed = false) :
      Takes builder (.start kind)
        { builder with stack := ⟨builder.nextId, .empty kind⟩ :: builder.stack }
        [.opened kind builder.position]
  | push (token : Token) {innermost : OpenNode} {outer : List OpenNode}
      (hopen : builder.rootClosed = false) (hstack : builder.stack = innermost :: outer)
      (hfits : builder.position + token.size < wordSize) :
      Takes builder (.push token)
        { builder with
          stack := innermost.grow (.token 0 innermost.nextId token) :: outer
          position := builder.position + token.size }
        []
  | closeRoot {root : OpenNode} (hopen : builder.rootClosed = false)
      (hstack : builder.stack = [root]) :
      Takes builder .close { builder with rootClosed := true }
        [.closedRoot root.draft.kind builder.position]
  | closeInner {innermost parent : OpenNode} {outer : List OpenNode}
      (hopen : builder.rootClosed = false) (hstack : builder.stack = innermost :: parent :: outer) :
      Takes builder .close { builder with stack := parent.grow (.node 0 innermost.tree) :: outer }
        [.closed innermost.draft.kind builder.position]

/-- Taking an event has one outcome. -/
theorem Takes.unique {builder after after' : Builder} {event : Event}
    {lines lines' : List TraceLine} (h : builder.Takes event after lines)
    (h' : builder.Takes event after' lines') : after = after' ∧ lines = lines' := by
  cases h with
  | start kind hopen =>
    cases h'
    exact ⟨rfl, rfl⟩
  | push token hopen hstack hfits =>
    cases h' with
    | push _ _ hstack' _ =>
      cases hstack.symm.trans hstack'
      exact ⟨rfl, rfl⟩
  | closeRoot hopen hstack =>
    cases h' with
    | closeRoot _ hstack' =>
      cases hstack.symm.trans hstack'
      exact ⟨rfl, rfl⟩
    | closeInner _ hstack' => cases hstack.symm.trans hstack'
  | closeInner hopen hstack =>
    cases h' with
    | closeRoot _ hstack' => cases hstack.symm.trans hstack'
    | closeInner _ hstack' =>
      cases hstack.symm.trans hstack'
      exact ⟨rfl, rfl⟩

/-- The position after an event, be it taken or refused: it moves past every token that still fits
a word, also if there is no place for it. -/
def positionAfter (builder : Builder) : Event → Nat
  | .push token =>
    if builder.position + token.size < wordSize then builder.position + token.size
    else builder.position
  | .start _ | .close => builder.position

/-- What holds of the state of every builder: the open nodes are laid out and together not longer
than the position, which fits a word, and only the root can be closed and still be there. -/
structure Sound (builder : Builder) : Prop where
  laidOut : ∀ node ∈ builder.stack, node.draft.LaidOut
  stackSize_le : stackSize builder.stack ≤ builder.position
  position_lt : builder.position < wordSize
  root_of_closed : builder.rootClosed = true → ∃ root, builder.stack = [root]

theorem sound_new (origin : Nat) : (new origin).Sound where
  laidOut := by simp [new]
  stackSize_le := by simp [new, stackSize]
  position_lt := by simp [new, wordSize]
  root_of_closed := by simp [new]

theorem le_positionAfter (builder : Builder) (event : Event) :
    builder.position ≤ builder.positionAfter event := by
  cases event with
  | start kind => exact Nat.le_refl _
  | close => exact Nat.le_refl _
  | push token =>
    rw [positionAfter]
    split_ifs <;> omega

theorem finish_eq_ok_iff {builder : Builder} {root : Node} :
    builder.finish = .ok root ↔ ∃ node, builder.stack = [node] ∧ root = .top node.tree := by
  rcases hstack : builder.stack with _ | ⟨node, _ | ⟨next, outer⟩⟩ <;>
    simp [finish, hstack, eq_comm]

namespace Sound

variable {builder after : Builder} {event : Event} {lines : List TraceLine}

theorem positionAfter_lt (h : builder.Sound) (event : Event) :
    builder.positionAfter event < wordSize := by
  cases event with
  | start kind => exact h.position_lt
  | close => exact h.position_lt
  | push token =>
    rw [positionAfter]
    split_ifs with hfits
    · exact hfits
    · exact h.position_lt

/-- The innermost open node is not longer than the position. -/
theorem byteLen_le (h : builder.Sound) {innermost : OpenNode} {outer : List OpenNode}
    (hstack : builder.stack = innermost :: outer) :
    innermost.draft.byteLen + stackSize outer ≤ builder.position := by
  have hsize := h.stackSize_le
  rw [hstack] at hsize
  simpa [stackSize] using hsize

/-- A node can always be started, except after the root was closed. -/
theorem start_cases (builder : Builder) (kind : NodeKind) :
    (∃ after lines, builder.Takes (.start kind) after lines ∧
      builder.start kind = .taken after lines) ∨
    ((∀ after lines, ¬builder.Takes (.start kind) after lines) ∧
      ∃ error, builder.start kind = .refused builder [] error) := by
  unfold Builder.start
  cases hclosed : builder.rootClosed with
  | false => exact .inl ⟨_, _, .start kind hclosed, by simp [hclosed]⟩
  | true =>
    refine .inr ⟨?_, .startedAfterRoot kind, rfl⟩
    rintro after lines (⟨_, hopen⟩ | _ | _ | _)
    simp [hclosed] at hopen

/-- A token is taken exactly if a node is open and the position still fits a word after it: the
open node never overflows by itself. -/
theorem push_cases (h : builder.Sound) (token : Token) :
    (∃ after lines, builder.Takes (.push token) after lines ∧
      builder.push token = .taken after lines) ∨
    ((∀ after lines, ¬builder.Takes (.push token) after lines) ∧
      ∃ error, builder.push token =
        .refused { builder with position := builder.positionAfter (.push token) } [] error) := by
  have hlen := Measures.add_left token.measures_byteLen builder.position
  unfold Builder.push
  cases hposition : token.byteLen >>= checkedAdd builder.position with
  | error o =>
    have hbig := hlen.exists_error_iff.1 ⟨o, hposition⟩
    refine .inr ⟨?_, .overflow o, by simp [positionAfter, hbig]⟩
    rintro after lines (_ | ⟨_, -, -, hfits⟩ | _ | _)
    exact hbig hfits
  | ok position =>
    have hfits := hlen.of_eq_ok hposition
    obtain rfl := hlen.eq_of_eq_ok hposition
    have hafter : builder.positionAfter (.push token) = builder.position + token.size := by
      simp [positionAfter, hfits]
    simp only [append, hafter]
    cases hclosed : builder.rootClosed with
    | true =>
      refine .inr ⟨?_, .pushedAfterRoot, by simp⟩
      rintro after lines (_ | ⟨_, hopen, -, -⟩ | _ | _)
      simp [hclosed] at hopen
    | false =>
      cases hstack : builder.stack with
      | nil =>
        refine .inr ⟨?_, .pushedOutside, by simp⟩
        rintro after lines (_ | ⟨_, -, hsome, -⟩ | _ | _)
        simp [hstack] at hsome
      | cons innermost outer =>
        have hle := h.byteLen_le hstack
        have hpush := (innermost.yields_push (.token 0 innermost.nextId token)).eq_ok
          (by rw [Child.size]; omega)
        exact .inl ⟨_, _, .push token hclosed hstack hfits, by simp [hpush, hclosed]⟩

/-- A node can be closed exactly if one is open: two open nodes fit a word together. -/
theorem close_cases (h : builder.Sound) :
    (∃ after lines, builder.Takes .close after lines ∧ builder.close = .taken after lines) ∨
    ((∀ after lines, ¬builder.Takes .close after lines) ∧
      ∃ error, builder.close = .refused builder [] error) := by
  unfold Builder.close
  cases hclosed : builder.rootClosed with
  | true =>
    refine .inr ⟨?_, .closedAfterRoot, by simp⟩
    rintro after lines (_ | _ | ⟨hopen, -⟩ | ⟨hopen, -⟩) <;> simp [hclosed] at hopen
  | false =>
    rcases hstack : builder.stack with _ | ⟨innermost, _ | ⟨parent, outer⟩⟩
    · refine .inr ⟨?_, .closedOutside, by simp⟩
      rintro after lines (_ | _ | ⟨-, hsome⟩ | ⟨-, hsome⟩) <;> simp [hstack] at hsome
    · exact .inl ⟨_, _, .closeRoot hclosed hstack, by simp [hstack]⟩
    · have hle := h.byteLen_le hstack
      have hlt := h.position_lt
      have hpush := (parent.yields_push (.node 0 innermost.tree)).eq_ok (by
        simp only [stackSize] at hle
        simp only [Child.size, OpenNode.tree, Draft.toTree]
        omega)
      exact .inl ⟨_, _, .closeInner hclosed hstack, by simp [append, hpush, hclosed]⟩

/-- **What a builder does with an event**: it takes it, or it refuses it and moves nothing but the
position. -/
theorem step_cases (h : builder.Sound) (event : Event) :
    (∃ after lines, builder.Takes event after lines ∧ builder.step event = .taken after lines) ∨
    ((∀ after lines, ¬builder.Takes event after lines) ∧
      ∃ error, builder.step event =
        .refused { builder with position := builder.positionAfter event } [] error) := by
  cases event with
  | start kind => exact start_cases builder kind
  | push token => exact h.push_cases token
  | close => exact h.close_cases

theorem step_eq_of_takes (h : builder.Sound) (htakes : builder.Takes event after lines) :
    builder.step event = .taken after lines := by
  rcases h.step_cases event with ⟨after', lines', htakes', hstep⟩ | ⟨hnot, -⟩
  · obtain ⟨rfl, rfl⟩ := htakes.unique htakes'
    exact hstep
  · exact absurd htakes (hnot after lines)

/-- Taking an event keeps a builder sound. -/
theorem takes (h : builder.Sound) (htakes : builder.Takes event after lines) : after.Sound := by
  have hlt := h.position_lt
  cases htakes with
  | start kind hopen =>
    refine ⟨?_, ?_, hlt, by simp [hopen]⟩
    · rintro node (_ | ⟨_, hmem⟩)
      · exact Draft.laidOut_empty kind
      · exact h.laidOut node hmem
    · simpa [stackSize, Draft.empty] using h.stackSize_le
  | @push token innermost outer hopen hstack hfits =>
    have hle := h.byteLen_le hstack
    have hlaid := h.laidOut
    rw [hstack] at hlaid
    refine ⟨?_, ?_, hfits, by simp [hopen]⟩
    · rintro node (_ | ⟨_, hmem⟩)
      · exact (hlaid _ (.head _)).grow (by rw [Child.size]; omega) (by rintro _ _ ⟨⟩)
      · exact hlaid node (.tail _ hmem)
    · simp only [stackSize, OpenNode.grow, Child.size] at hle ⊢
      omega
  | closeRoot hopen hstack => exact ⟨h.laidOut, h.stackSize_le, hlt, fun _ => ⟨_, hstack⟩⟩
  | @closeInner innermost parent outer hopen hstack =>
    have hle := h.byteLen_le hstack
    have hlaid := h.laidOut
    rw [hstack] at hlaid
    simp only [stackSize] at hle
    refine ⟨?_, ?_, hlt, by simp [hopen]⟩
    · rintro node (_ | ⟨_, hmem⟩)
      · refine (hlaid _ (.tail _ (.head _))).grow ?_ ?_
        · simp only [Child.size, OpenNode.tree, Draft.toTree]
          omega
        · rintro _ _ ⟨⟩
          exact hlaid innermost (.head _) innermost.id
      · exact hlaid node (.tail _ (.tail _ hmem))
    · simp only [stackSize, OpenNode.grow, Child.size, OpenNode.tree, Draft.toTree]
      omega

/-- **Every event keeps a builder sound**, be it taken or refused. -/
theorem step (h : builder.Sound) (event : Event) : (builder.step event).builder.Sound := by
  rcases h.step_cases event with ⟨after, lines, htakes, hstep⟩ | ⟨-, error, hstep⟩
  · rw [hstep]
    exact h.takes htakes
  · rw [hstep]
    have hle := le_positionAfter builder event
    exact ⟨h.laidOut, Nat.le_trans h.stackSize_le hle, h.positionAfter_lt event, h.root_of_closed⟩

end Sound

end Builder

end LosslessTree
