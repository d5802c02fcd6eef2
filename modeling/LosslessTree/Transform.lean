import LosslessTree.Node.Fold
import LosslessTree.Trace
import LosslessTree.Tree.Draft

/-!
# Transforming trees

A transformation makes a new tree out of a node in place. A rule is asked about each node from the
top down, in textual order, and answers that the node is to be kept or to be replaced; below a
replaced node nothing is asked. A node without a change below it is shared with the old tree,
identity included. A node with a change below it is copied, and each changed child is put into the
copy as soon as it is known, so every length on the way has to fit a word, not only the last one.

## Main definitions

* `Answer`: what a rule answers about a node.
* `Consultation`: a node the rule was asked about, with the answer.
* `Outcome`: the consultations in order, and a result if no length overflowed.
* `Node.transform`: the new tree.
* `Outcome.trace`: the trace lines of a transformation.
-/

namespace LosslessTree

/-- The answer of a rule about a node. -/
inductive Answer where
  /-- Keep the node and go on below it. -/
  | keep
  /-- Put the tree of another node in its place. -/
  | replace (replacement : Node)

/-- A node that a rule was asked about, with its answer. -/
structure Consultation where
  node : Node
  answer : Answer

/-- The trace line of a consultation: a replacement writes one. -/
def Consultation.trace? (consultation : Consultation) : Option TraceLine :=
  match consultation.answer with
  | .keep => none
  | .replace replacement =>
    some (.replaced consultation.node.kind consultation.node.offset replacement.kind)

/-- The outcome of a transformation: the consultations in order, up to the end or to the overflow
that stopped it, and the result. -/
structure Outcome (α : Type) where
  asked : List Consultation
  result : Except Overflow α

namespace Outcome

variable {α β : Type}

/-- An outcome without consultations. -/
def of (result : Except Overflow α) : Outcome α :=
  ⟨[], result⟩

/-- The outcome of asking a rule about a node. -/
def consult (rule : Node → Answer) (node : Node) : Outcome Answer :=
  ⟨[⟨node, rule node⟩], .ok (rule node)⟩

/-- Goes on with the result, unless a length overflowed; the consultations are kept either way. -/
def andThen (outcome : Outcome α) (next : α → Outcome β) : Outcome β :=
  match outcome.result with
  | .ok a =>
    let rest := next a
    ⟨outcome.asked ++ rest.asked, rest.result⟩
  | .error o => ⟨outcome.asked, .error o⟩

instance : Monad Outcome where
  pure a := of (.ok a)
  bind := andThen

theorem map_id (outcome : Outcome α) : id <$> outcome = outcome := by
  rcases outcome with ⟨asked, result⟩
  cases result <;> simp [Functor.map, andThen, of]

theorem pure_andThen (a : α) (next : α → Outcome β) : (pure a >>= next) = next a := by
  simp [bind, pure, andThen, of]

theorem andThen_assoc {γ : Type} (outcome : Outcome α) (next : α → Outcome β)
    (last : β → Outcome γ) :
    (outcome >>= next >>= last) = (outcome >>= fun a => next a >>= last) := by
  rcases outcome with ⟨asked, result⟩
  cases result with
  | error o => rfl
  | ok a =>
    rcases h : next a with ⟨asked', result'⟩
    cases result' <;> simp [bind, andThen, h]

instance : LawfulMonad Outcome :=
  LawfulMonad.mk' Outcome map_id pure_andThen andThen_assoc

/-- The trace lines of an outcome. -/
def trace (outcome : Outcome α) : List TraceLine :=
  outcome.asked.filterMap Consultation.trace?

end Outcome

namespace Node

/-- Transforms one branch of `node`: if its new tree is another one than its old tree, it replaces
that in the copy of `node` made so far, or in a new copy. -/
def transformBranch (node : Node) (place : List Nat) (copy : Option Draft) :
    Branch (List Nat → Outcome Tree) → Outcome (Option Draft)
  | .leaf _ => pure copy
  | .node child transformed => do
    let tree ← transformed () (place ++ [child.index])
    if tree.id = child.tree.id then
      return copy
    else
      let base := copy.getD node.tree.toDraft
      return some (← .of (base.replaceChild child.index (.node 0 tree)))

/-- The new tree of a node, made from the transformations of its branches; `place` is the place of
the node below the top of the transformation. -/
def transformStep (origin : Nat) (rule : Node → Answer) (node : Node)
    (branches : List (Branch (List Nat → Outcome Tree))) (place : List Nat) : Outcome Tree := do
  match ← .consult rule node with
  | .replace replacement => return replacement.tree
  | .keep =>
    match ← branches.foldlM (node.transformBranch place) none with
    | some copy => return copy.toTree ⟨origin, place⟩
    | none => return node.tree

/-- Transforms the subtree of a node by a rule, as operation number `origin`; the result is the root
of a tree of its own. -/
def transform (origin : Nat) (rule : Node → Answer) (node : Node) : Outcome Node := do
  return .top (← node.fold (transformStep origin rule) [])

end Node

end LosslessTree
