/-!
# Lengths in a machine word

Every length and offset of a tree is a number of UTF-8 bytes that fits a 64-bit word. Lengths are
plain natural numbers here; the two operations that make a new length out of old ones check that the
result still fits, and report which operation did not.

## Main definitions

* `wordSize`: the number of values of a word, `2 ^ 64`.
* `Overflow`: the operation whose result did not fit.
* `checkedAdd`, `checkedMul`: sum and product, if they fit.

## Main results

* `checkedAdd_eq_ok_iff`, `checkedMul_eq_ok_iff`: an operation succeeds exactly when the exact
  result fits, and then it is the exact result.
-/

namespace LosslessTree

/-- The number of values of a 64-bit word, `2 ^ 64`: every stored length lies below it. -/
def wordSize : Nat := 0x10000000000000000

/-- The operation on lengths whose result does not fit a word. -/
inductive Overflow where
  | add
  | multiply
  deriving DecidableEq, Repr

/-- The wording of an overflow. -/
def Overflow.message : Overflow → String
  | .add => "attempt to add with overflow"
  | .multiply => "attempt to multiply with overflow"

/-- The sum of two lengths, if it fits a word. -/
def checkedAdd (a b : Nat) : Except Overflow Nat :=
  if a + b < wordSize then .ok (a + b) else .error .add

/-- The product of two lengths, if it fits a word. -/
def checkedMul (a b : Nat) : Except Overflow Nat :=
  if a * b < wordSize then .ok (a * b) else .error .multiply

theorem checkedAdd_eq_ok_iff {a b c : Nat} :
    checkedAdd a b = .ok c ↔ a + b < wordSize ∧ a + b = c := by
  unfold checkedAdd
  split <;> rename_i h <;> simp [h]

theorem checkedMul_eq_ok_iff {a b c : Nat} :
    checkedMul a b = .ok c ↔ a * b < wordSize ∧ a * b = c := by
  unfold checkedMul
  split <;> rename_i h <;> simp [h]

end LosslessTree
