import LosslessTree.Tree.Basic

/-!
# Drafts

A draft is a node under construction. Children are appended one after the other, each at the
offset where the previous one ends, so the children of a draft always tile its text. A child can be
replaced by another one of a different length: the draft is then laid out anew from its first
child.

## Main definitions

* `Draft`, with `Draft.empty`, `Draft.push`, `Draft.replaceChild`.
* `Draft.layOut`: children placed one after the other.
* `Draft.toTree`, `Tree.toDraft`: from a draft to a tree with an identity, and back.

## Main results

* `Draft.foldlM_push`, `Draft.replaceChild_eq_foldlM`: appending children one by one, and replacing
  one of them, lays them out in the same way.
-/

namespace LosslessTree

/-- A node under construction, not yet part of a tree. -/
structure Draft where
  kind : NodeKind
  byteLen : Nat
  children : List Child

namespace Draft

/-- A draft without children. -/
def empty (kind : NodeKind) : Draft :=
  ⟨kind, 0, []⟩

/-- Appends a child directly after the last one, wherever it stood before. The new length must fit
a word. -/
def push (draft : Draft) (child : Child) : Except Overflow Draft := do
  let byteLen ← checkedAdd draft.byteLen (← child.byteLen)
  return { draft with byteLen, children := draft.children ++ [child.moveTo draft.byteLen] }

/-- Children placed one after the other from `start` on, and where the last one ends. Each sum on
the way, from the first child to the last, must fit a word. -/
def layOut (start : Nat) : List Child → Except Overflow (List Child × Nat)
  | [] => .ok ([], start)
  | child :: rest => do
    let next ← checkedAdd start (← child.byteLen)
    let (placed, stop) ← layOut next rest
    return (child.moveTo start :: placed, stop)

/-- Replaces the child at `index` and lays all children out again, so that they stay contiguous. -/
def replaceChild (draft : Draft) (index : Nat) (child : Child) : Except Overflow Draft := do
  let (children, byteLen) ← layOut 0 (draft.children.set index child)
  return { draft with byteLen, children }

/-- Appending children one by one lays them out behind those that are there. -/
theorem foldlM_push (draft : Draft) (children : List Child) :
    children.foldlM push draft = (do
      let (placed, byteLen) ← layOut draft.byteLen children
      return { draft with byteLen, children := draft.children ++ placed }) := by
  induction children generalizing draft with
  | nil => simp [layOut, bind, Except.bind, pure, Except.pure]
  | cons child rest ih =>
    rw [List.foldlM_cons, layOut, push]
    cases hlen : child.byteLen with
    | error o => rfl
    | ok length =>
      cases hadd : checkedAdd draft.byteLen length with
      | error o => simp [hadd, bind, Except.bind]
      | ok next =>
        simp only [hadd, bind, Except.bind, pure, Except.pure] at ih ⊢
        rw [ih]
        cases layOut next rest <;> simp

/-- Replacing a child is the same as appending all children to an empty draft. -/
theorem replaceChild_eq_foldlM (draft : Draft) (index : Nat) (child : Child) :
    draft.replaceChild index child =
      (draft.children.set index child).foldlM push (empty draft.kind) := by
  simp [foldlM_push, replaceChild, empty]

/-- The finished tree, under the given identity. -/
def toTree (draft : Draft) (id : Ident) : Tree :=
  ⟨id, draft.kind, draft.byteLen, draft.children⟩

end Draft

/-- A copy of the top node of a tree, open for change. -/
def Tree.toDraft (tree : Tree) : Draft :=
  ⟨tree.kind, tree.byteLen, tree.children⟩

@[simp] theorem Tree.toTree_toDraft (tree : Tree) : tree.toDraft.toTree tree.id = tree := by
  cases tree
  rfl

@[simp] theorem Draft.toDraft_toTree (draft : Draft) (id : Ident) :
    (draft.toTree id).toDraft = draft :=
  rfl

end LosslessTree
