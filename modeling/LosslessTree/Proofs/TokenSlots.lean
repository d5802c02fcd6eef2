import LosslessTree.Proofs.ByteLength
import LosslessTree.Proofs.Overwriting

/-!
# The slots of a token

The full text of a token has three slots: the trivia in front, the text, and the trivia behind. Each
change that a token allows writes one slot and leaves the others alone, so that after a run of
changes each slot holds what was written to it last. A token does not store its length. It is added
up anew whenever it is asked for, slot by slot and piece by piece, and it overflows exactly if what
stands in the slots in the end does not fit a word together.

## Main definitions

* `Exact`: the computation of the length of a text overflows exactly if the text is too long.
* `Token.Slot`, `Token.slotText`: the slots, and what stands in them.
* `Token.Change`, `Token.afterChanges`: one slot written, and slots written one after the other.

## Main results

* `Token.slotText_apply`, `Token.slotText_afterChanges`: what one change and what a run of changes
  leaves in each slot.
* `Token.byteLen_exact_afterChanges`: lengths are exact, whatever was changed.
-/

namespace LosslessTree

/-- The computation `x` of the length of a text overflows exactly if the text has `2 ^ 64` bytes or
more, and otherwise gives the number of its bytes. -/
structure Exact (x : Except Overflow Nat) (text : String) : Prop where
  overflows_iff : (∃ overflow, x = .error overflow) ↔ wordSize ≤ text.utf8ByteSize
  eq_ok : text.utf8ByteSize < wordSize → x = .ok text.utf8ByteSize

theorem Measures.exact {x : Except Overflow Nat} {text : String}
    (h : Measures x text.utf8ByteSize) : Exact x text where
  overflows_iff := h.exists_error_iff.trans Nat.not_lt
  eq_ok := h.eq_ok

namespace Token

/-- The parts of the full text of a token, in textual order. -/
inductive Slot where
  | leading
  | text
  | trailing
  deriving DecidableEq, Repr

/-- What stands in a slot of a token. -/
def slotText (token : Token) : Slot → String
  | .leading => token.leading.text
  | .text => token.text
  | .trailing => token.trailing.text

theorem fullText_eq_slots (token : Token) :
    token.fullText = token.slotText .leading ++ token.slotText .text ++ token.slotText .trailing :=
  rfl

/-- A change of a token: new content for one of its slots. -/
inductive Change where
  | text (content : String)
  | leading (trivia : Trivia)
  | trailing (trivia : Trivia)
  deriving DecidableEq, Repr

namespace Change

/-- The token with the new content. -/
def apply : Change → Token → Token
  | text content, token => token.withText content
  | leading trivia, token => token.withLeading trivia
  | trailing trivia, token => token.withTrailing trivia

/-- The slot that a change is meant for. -/
def slot : Change → Slot
  | text _ => .text
  | leading _ => .leading
  | trailing _ => .trailing

/-- What a change writes. -/
def written : Change → String
  | text content => content
  | leading trivia => trivia.text
  | trailing trivia => trivia.text

theorem kind_apply (change : Change) (token : Token) : (change.apply token).kind = token.kind := by
  cases change <;> rfl

end Change

/-- **A change writes its own slot and no other.** -/
theorem slotText_apply (change : Change) (token : Token) (slot : Slot) :
    (change.apply token).slotText slot =
      if change.slot = slot then change.written else token.slotText slot := by
  cases change <;> cases slot <;> rfl

/-! ### Runs of changes -/

/-- The token after changes, made one after the other. -/
def afterChanges (token : Token) (changes : List Change) : Token :=
  changes.foldl (fun token change => change.apply token) token

theorem kind_afterChanges (token : Token) (changes : List Change) :
    (token.afterChanges changes).kind = token.kind := by
  induction changes generalizing token with
  | nil => rfl
  | cons change rest ih => exact (ih (change.apply token)).trans (change.kind_apply token)

/-- **After a run of changes each slot holds what was written to it last**, or what it held before
if nothing was. -/
theorem slotText_afterChanges (token : Token) (changes : List Change) (slot : Slot) :
    (token.afterChanges changes).slotText slot =
      (lastWith Change.slot slot changes).elim (token.slotText slot) Change.written := by
  refine read_foldl_write (fun slot token => token.slotText slot) (fun token change =>
    change.apply token) Change.slot (fun change _ => change.written) ?_ ?_ changes token slot
  · intro token change slot
    exact slotText_apply change token slot
  · intro change later held
    rfl

/-- **Lengths are exact, whatever was changed.** The length of a piece, of trivia and of a token
after any changes overflows exactly if the text does not fit a word, and otherwise it is the number
of bytes of the text. The text of a token is made up of its slots; each change writes its own slot
only, and a run of changes leaves in each slot what was written to it last, and the kind alone. -/
theorem byteLen_exact_afterChanges :
    (∀ piece : Piece, Exact piece.byteLen piece.text) ∧
    (∀ trivia : Trivia, Exact trivia.byteLen trivia.text) ∧
    ∀ token : Token,
      token.fullText =
        token.slotText .leading ++ token.slotText .text ++ token.slotText .trailing ∧
      (∀ (change : Change) (slot : Slot), (change.apply token).slotText slot =
        if change.slot = slot then change.written else token.slotText slot) ∧
      ∀ changes : List Change,
        Exact (token.afterChanges changes).byteLen (token.afterChanges changes).fullText ∧
        (token.afterChanges changes).kind = token.kind ∧
        ∀ slot, (token.afterChanges changes).slotText slot =
          (lastWith Change.slot slot changes).elim (token.slotText slot) Change.written := by
  refine ⟨?_, ?_, fun token => ⟨token.fullText_eq_slots, ?_, fun changes => ⟨?_, ?_, ?_⟩⟩⟩
  · intro piece
    exact piece.measures_byteLen.exact
  · intro trivia
    exact trivia.measures_byteLen.exact
  · intro change slot
    exact slotText_apply change token slot
  · exact Measures.exact (token.afterChanges changes).measures_byteLen
  · exact token.kind_afterChanges changes
  · exact token.slotText_afterChanges changes

/-- A word can count its spaces, but not one byte more. -/
example :
    ((identifier "").withTrailing ⟨[.spaces 0xffffffffffffffff]⟩).byteLen = .ok (wordSize - 1) ∧
    ((identifier "x").withTrailing ⟨[.spaces 0xffffffffffffffff]⟩).byteLen = .error .add :=
  ⟨rfl, rfl⟩

end Token

end LosslessTree
