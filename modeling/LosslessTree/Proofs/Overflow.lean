import LosslessTree.Proofs.Builder.Replay
import LosslessTree.Proofs.Reading

/-!
# Where lengths can overflow

Lengths are added up in many places: when a token is measured, when a builder counts what it was
offered, when a child is appended to an open node, and whenever a child is seen in place. All but
the first two never overflow. The open nodes of a builder are together not longer than what it has
counted, so what still fits there fits the open node as well; and in a tree that came out of a run
no part ends behind the end of the text.

## Main results

* `Builder.Sound.step_overflow_iff`: a builder overflows only where it counts a token.
* `Builder.Sound.afterCalls`: builders stay sound, whatever is called.
* `Forest.Reachable.overflows_only_at_tokens`: nothing else overflows in a run.
-/

namespace LosslessTree

namespace Builder

variable {builder : Builder}

/-- Appending overflows only if the innermost open node does. -/
theorem append_overflow_iff (builder : Builder) (child : OpenNode → Child)
    (trace : List TraceLine) (overflow : Overflow) :
    (builder.append child trace).error? = some (.overflow overflow) ↔
      builder.rootClosed = false ∧ ∃ innermost outer, builder.stack = innermost :: outer ∧
        innermost.push (child innermost) = .error overflow := by
  unfold append
  cases hclosed : builder.rootClosed with
  | true => simp [Reply.refused]
  | false =>
    cases hstack : builder.stack with
    | nil => simp [Reply.refused]
    | cons innermost outer =>
      cases hpush : innermost.push (child innermost) <;>
        simp [Reply.refused, Reply.taken, hpush]

theorem finish_ne_overflow (builder : Builder) (overflow : Overflow) :
    builder.finish ≠ .error (.overflow overflow) := by
  unfold finish
  split <;> simp

namespace Sound

/-- Starting a node computes no length. -/
theorem start_ne_overflow (builder : Builder) (kind : NodeKind) (overflow : Overflow) :
    (builder.start kind).error? ≠ some (.overflow overflow) := by
  unfold Builder.start
  split_ifs <;> simp [Reply.refused, Reply.taken]

/-- A node that is closed fits the node around it: both were counted. -/
theorem close_ne_overflow (h : builder.Sound) (overflow : Overflow) :
    builder.close.error? ≠ some (.overflow overflow) := by
  rcases h.close_cases with ⟨after, lines, -, hclose⟩ | ⟨hnot, -⟩
  · simp [hclose, Reply.taken]
  · unfold Builder.close
    split_ifs with hclosed
    · simp [Reply.refused]
    · split
      · simp [Reply.refused]
      · simp [Reply.taken]
      · next innermost outer _ hstack =>
        -- with a node around it, the innermost one would be closed
        rw [Ne, append_overflow_iff]
        rintro ⟨-, parent, rest, rfl : outer = parent :: rest, -⟩
        exact hnot _ _ (.closeInner (Bool.eq_false_iff.2 hclosed) hstack)

/-- A token overflows exactly if it cannot be measured or counted: once it is counted, it fits the
innermost open node. -/
theorem push_overflow_iff (h : builder.Sound) (token : Token) (overflow : Overflow) :
    (builder.push token).error? = some (.overflow overflow) ↔
      token.byteLen >>= checkedAdd builder.position = .error overflow := by
  constructor
  · intro herror
    cases hposition : token.byteLen >>= checkedAdd builder.position with
    | error o => simpa [Builder.push, hposition, Reply.refused] using herror
    | ok position =>
      have hlen := Measures.add_left token.measures_byteLen builder.position
      have happend := herror
      rw [Builder.push, hposition, append_overflow_iff] at happend
      obtain ⟨hopen, innermost, outer, hstack, -⟩ := happend
      have htaken := h.step_eq_of_takes (.push token hopen hstack (hlen.of_eq_ok hposition))
      rw [Builder.step] at htaken
      rw [htaken] at herror
      cases herror
  · intro hposition
    simp [Builder.push, hposition, Reply.refused]

/-- **A builder overflows only where it measures or counts a token.** -/
theorem step_overflow_iff (h : builder.Sound) (event : Event) (overflow : Overflow) :
    (builder.step event).error? = some (.overflow overflow) ↔
      ∃ token, event = .push token ∧
        token.byteLen >>= checkedAdd builder.position = .error overflow := by
  cases event with
  | start kind => simp [Builder.step, start_ne_overflow]
  | push token => simp [Builder.step, h.push_overflow_iff]
  | close => simp [Builder.step, h.close_ne_overflow]

/-- Builders stay sound, whatever is called and whatever is refused on the way. -/
theorem afterCalls (h : builder.Sound) (calls : List Call) : (builder.afterCalls calls).Sound := by
  induction calls generalizing builder with
  | nil => exact h
  | cons call rest ih => exact ih (h.run call.events)

end Sound

end Builder

/-- **Nothing overflows in a run but the measuring and the counting of tokens.** Whatever is called
on a builder, and whatever is refused on the way, the open nodes are together not longer than what
was counted; an event overflows exactly if it is a token whose length, or the count after it, does
not fit a word; and finishing never overflows. In every tree of a run, each part ends at the end of
the text or before it, and that fits a word: so whatever is read, no sum overflows. -/
theorem Forest.Reachable.overflows_only_at_tokens {forest : Forest} (h : forest.Reachable) :
    (∀ origin calls,
      stackSize ((Builder.new origin).afterCalls calls).stack ≤
        ((Builder.new origin).afterCalls calls).position ∧
      (∀ overflow, ((Builder.new origin).afterCalls calls).finish ≠ .error (.overflow overflow)) ∧
      ∀ attempt ∈ (Builder.new origin).history calls,
        stackSize attempt.before.stack ≤ attempt.before.position ∧
        ∀ overflow, attempt.reply.error? = some (.overflow overflow) ↔
          ∃ token, attempt.event = .push token ∧
            token.byteLen >>= checkedAdd attempt.before.position = .error overflow) ∧
    ∀ tree ∈ forest.trees, tree.byteLen < wordSize ∧
      (∀ part, (Node.top tree).Reaches part →
        ∃ length, part.byteLen = .ok length ∧ part.offset + length ≤ tree.byteLen) ∧
      ∀ node, (Node.top tree).Within node → node.ReadsExactly := by
  constructor
  · intro origin calls
    have hsound := Builder.sound_new origin
    refine ⟨(hsound.afterCalls calls).stackSize_le, Builder.finish_ne_overflow _, ?_⟩
    intro attempt hmem
    have hbefore := hsound.before_of_mem_history calls hmem
    exact ⟨hbefore.stackSize_le, hbefore.step_overflow_iff attempt.event⟩
  · intro tree htree
    have hlaid := h.sound.laidOut htree
    exact ⟨hlaid.byteLen_lt, fun part hpart => hpart.exists_stop_le hlaid,
      fun node hnode => hnode.readsExactly hlaid⟩

namespace Forest

/-- As many spaces as a word can count. -/
def widestToken : Token :=
  (Token.identifier "").withTrailing ⟨[.spaces (.ofNat (wordSize - 1))]⟩

/-- A token that is as long as a word can count overflows behind a token of one byte, and reading
the second variable of `ü .ü ` overflows nowhere. -/
theorem overflow_of_widestToken :
    ((empty.add 0 dottedTree).add 1 sharingTree).Reachable ∧
    (((Builder.new 2).afterCalls [.single (.start .file), .single (.push (.identifier "x"))]).push
      widestToken).error? = some (.overflow .add) ∧
    (Node.inner (.top sharingTree) 2 4 variableTree).ReadsExactly.{0} := by
  have hmem : sharingTree ∈ ((empty.add 0 dottedTree).add 1 sharingTree).trees := .head _
  obtain ⟨hbuilders, htrees⟩ := Reachable.overflows_only_at_tokens reachable_sharing
  obtain ⟨-, -, hattempts⟩ := hbuilders 2
    [.single (.start .file), .single (.push (.identifier "x")), .single (.push widestToken)]
  have hoverflow := (hattempts _ (.tail _ (.tail _ (.head _)))).2 .add
  refine ⟨reachable_sharing, hoverflow.2 ⟨widestToken, rfl, rfl⟩, ?_⟩
  exact (htrees _ hmem).2.2 _ (.of_mem_children (.tail _ (.head _)))

end Forest

end LosslessTree
