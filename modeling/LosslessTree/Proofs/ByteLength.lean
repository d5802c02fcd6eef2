import LosslessTree.Token.Basic

/-!
# Lengths and texts agree

The length of a piece of trivia, of trivia and of a token is computed from counts and bodies, never
from the text itself. This file compares the two: the computation succeeds exactly when the text has
fewer than `2 ^ 64` bytes, and then it gives the number of these bytes. No partial sum can overflow
on the way unless the whole does, since sums only grow.

## Main definitions

* `Yields x fits value`: the computation `x` succeeds exactly if `fits`, and then with `value`.
* `Measures x size`: the computation `x` gives the exact length `size` if that fits a word, and
  fails otherwise.

## Main results

* `Yields.bind`: going on with a computation that succeeds whenever the whole does.
* `Measures.add`: exact lengths can be added, whatever the split into partial sums.
* `Piece.measures_byteLen`, `Trivia.measures_byteLen`, `Token.measures_byteLen`: lengths are the
  sizes of the texts.
-/

namespace LosslessTree

universe u

/-- A computation in two parts succeeds if both parts do. -/
theorem bind_eq_ok_iff {α β : Type u} {x : Except Overflow α} {f : α → Except Overflow β} {b : β} :
    x >>= f = .ok b ↔ ∃ a, x = .ok a ∧ f a = .ok b := by
  cases x with
  | error o =>
    constructor
    · intro hok
      cases hok
    · rintro ⟨a, hok, -⟩
      cases hok
  | ok a => exact ⟨fun hok => ⟨a, rfl, hok⟩, fun ⟨_, ha, hok⟩ => by cases ha; exact hok⟩

/-- The computation `x` succeeds exactly if `fits`, and then with `value`. -/
def Yields {α : Type u} (x : Except Overflow α) (fits : Prop) (value : α) : Prop :=
  ∀ a, x = .ok a ↔ fits ∧ value = a

namespace Yields

variable {α β : Type u} {x : Except Overflow α} {p q : Prop} {a b : α}

theorem eq_ok (h : Yields x p a) (hp : p) : x = .ok a :=
  (h a).2 ⟨hp, rfl⟩

theorem eq_of_eq_ok (h : Yields x p a) (hb : x = .ok b) : a = b :=
  ((h b).1 hb).2

theorem of_eq_ok (h : Yields x p a) (hb : x = .ok b) : p :=
  ((h b).1 hb).1

theorem exists_error_iff (h : Yields x p a) : (∃ o, x = .error o) ↔ ¬p := by
  constructor
  · rintro ⟨o, rfl⟩ hp
    cases h.eq_ok hp
  · intro hp
    cases x with
    | error o => exact ⟨o, rfl⟩
    | ok b => exact absurd (h.of_eq_ok rfl) hp

theorem ok (hp : p) (a : α) : Yields (.ok a) p a := by
  intro b
  simp [hp]

/-- Going on with a computation: a failure on the way means that the whole fails as well, provided
that the whole can only succeed if the first part does. -/
theorem bind {f : α → Except Overflow β} {b : β} (hx : Yields x p a) (hqp : q → p)
    (hf : p → Yields (f a) q b) : Yields (x >>= f) q b := by
  intro c
  cases x with
  | ok a' =>
    have hp := hx.of_eq_ok rfl
    obtain rfl := hx.eq_of_eq_ok rfl
    exact hf hp c
  | error o =>
    have hnot := hx.exists_error_iff.1 ⟨o, rfl⟩
    constructor
    · intro hok
      cases hok
    · rintro ⟨hq, -⟩
      exact absurd (hqp hq) hnot

/-- A computation followed by a step that never fails. -/
theorem map (h : Yields x p a) (f : α → β) : Yields (x >>= fun a => .ok (f a)) p (f a) :=
  h.bind id fun hp => .ok hp (f a)

end Yields

/-- The computation `x` of a length gives the exact length `size`, and succeeds exactly when that
fits a word. -/
abbrev Measures (x : Except Overflow Nat) (size : Nat) : Prop :=
  Yields x (size < wordSize) size

namespace Measures

variable {x y : Except Overflow Nat} {a b : Nat}

theorem checkedAdd (a b : Nat) : Measures (checkedAdd a b) (a + b) :=
  fun _ => checkedAdd_eq_ok_iff

theorem checkedMul (a b : Nat) : Measures (checkedMul a b) (a * b) :=
  fun _ => checkedMul_eq_ok_iff

/-- A length can be added to one that is known already. -/
theorem add_left (h : Measures x b) (a : Nat) :
    Measures (x >>= LosslessTree.checkedAdd a) (a + b) :=
  h.bind (Nat.lt_of_le_of_lt (Nat.le_add_left b a)) fun _ => checkedAdd a b

/-- **Exact lengths can be added.** The sum of two lengths is exact, and it fails exactly when the
sum of the exact lengths does not fit, since a part never exceeds the whole. -/
theorem add (hx : Measures x a) (hy : Measures y b) :
    Measures (x >>= fun m => y >>= LosslessTree.checkedAdd m) (a + b) :=
  hx.bind (Nat.lt_of_le_of_lt (Nat.le_add_right a b)) fun _ => hy.add_left a

end Measures

namespace Piece

theorem utf8ByteSize_repeated (unit : String) (count : Nat) :
    (repeated unit count).utf8ByteSize = count * unit.utf8ByteSize := by
  induction count with
  | zero => simp [repeated]
  | succ count ih =>
    rw [repeated, List.replicate_succ, String.join_cons, String.utf8ByteSize_append, Nat.succ_mul,
      Nat.add_comm]
    exact congrArg (· + _) ih

/-- The length of a piece is the size of its text. -/
theorem measures_byteLen (piece : Piece) : Measures piece.byteLen piece.text.utf8ByteSize := by
  cases piece with
  | spaces count | tabs count | lineFeeds count =>
    simp only [text, byteLen, utf8ByteSize_repeated]
    change Measures _ (count.toNat * 1)
    rw [Nat.mul_one]
    exact .ok count.toNat_lt _
  | crlfs count =>
    simp only [text, byteLen, utf8ByteSize_repeated]
    exact Measures.checkedMul _ _
  | lineComment body =>
    have hsize : ("//" ++ body).utf8ByteSize = 2 + body.utf8ByteSize :=
      String.utf8ByteSize_append
    simp only [text, byteLen, hsize]
    exact Measures.checkedAdd _ _
  | blockComment body =>
    have hsize : ("/*" ++ body ++ "*/").utf8ByteSize = 4 + body.utf8ByteSize := by
      have hopen : "/*".utf8ByteSize = 2 := rfl
      have hclose : "*/".utf8ByteSize = 2 := rfl
      rw [String.utf8ByteSize_append, String.utf8ByteSize_append]
      omega
    simp only [text, byteLen, hsize]
    exact Measures.checkedAdd _ _

end Piece

namespace Trivia

/-- Pieces added up behind a length that is known already. -/
theorem measures_foldlM (start : Nat) (hstart : start < wordSize) (pieces : List Piece) :
    Measures (pieces.foldlM (fun total piece => do checkedAdd total (← piece.byteLen)) start)
      (start + (String.join (pieces.map Piece.text)).utf8ByteSize) := by
  induction pieces generalizing start with
  | nil => exact .ok hstart _
  | cons piece rest ih =>
    have hpiece := piece.measures_byteLen.add_left start
    rw [List.foldlM_cons, List.map_cons, String.join_cons, String.utf8ByteSize_append,
      ← Nat.add_assoc]
    exact hpiece.bind (Nat.lt_of_le_of_lt (Nat.le_add_right _ _)) fun hlt => ih _ hlt

/-- The length of trivia is the size of its text. -/
theorem measures_byteLen (trivia : Trivia) : Measures trivia.byteLen trivia.text.utf8ByteSize := by
  simpa [byteLen, text] using measures_foldlM 0 (by decide) trivia.pieces

end Trivia

namespace Token

/-- The length of a token with its trivia, in bytes of its full text. -/
def size (token : Token) : Nat :=
  token.fullText.utf8ByteSize

theorem size_eq (token : Token) :
    token.size =
      token.leading.text.utf8ByteSize + token.textLen + token.trailing.text.utf8ByteSize := by
  simp [size, fullText, textLen]

/-- **The length of a token is the size of its full text.** -/
theorem measures_byteLen (token : Token) : Measures token.byteLen token.size := by
  rw [size_eq]
  have hfront : Measures (token.leading.byteLen >>= fun m => checkedAdd m token.textLen)
      (token.leading.text.utf8ByteSize + token.textLen) :=
    token.leading.measures_byteLen.bind (Nat.lt_of_le_of_lt (Nat.le_add_right _ _)) fun _ =>
      Measures.checkedAdd _ _
  have hall := hfront.add token.trailing.measures_byteLen
  rwa [bind_assoc] at hall

end Token

end LosslessTree
