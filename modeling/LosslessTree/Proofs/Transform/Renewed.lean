import Mathlib.Data.List.Forall2
import LosslessTree.Proofs.Stream
import LosslessTree.Transform

/-!
# What a transformation makes of a node

A transformation looks at the parts of a node one after the other and puts each changed child into a
copy of the node, which it makes when it is needed and lays out anew each time. What comes out is
the node with every child renewed, laid out once: the copy, the order of the replacements and the
offsets on the way leave no trace. Only an overflow on the way can.

## Main definitions

* `Node.renewed`: the new tree of a node, without the record of what was asked.
* `Renews`: a child that may stand for a part in the new tree.

## Main results

* `Node.result_transform`: the result of a transformation is the renewed tree of the top.
* `Node.renewed_of_replace`, `Node.renewed_of_keep`: the two answers of a rule.
* `Node.exists_renewed_children`: a node that is kept has its children renewed.
-/

namespace LosslessTree

namespace Outcome

variable {α β : Type}

@[simp] theorem result_bind (outcome : Outcome α) (next : α → Outcome β) :
    (outcome >>= next).result = outcome.result >>= fun a => (next a).result := by
  rcases outcome with ⟨asked, _ | a⟩ <;> rfl

@[simp] theorem result_of (result : Except Overflow α) : (of result).result = result :=
  rfl

theorem result_foldlM (f : α → β → Outcome α) (items : List β) (init : α) :
    (items.foldlM f init).result = items.foldlM (fun a b => (f a b).result) init := by
  induction items generalizing init with
  | nil => rfl
  | cons item rest ih =>
    rw [List.foldlM_cons, List.foldlM_cons, result_bind]
    congr 1
    funext a
    exact ih a

end Outcome

namespace Node

variable {origin : Nat} {rule : Node → Answer} {node : Node} {position : List Nat}

/-- The new tree of a node at a place of the result. -/
def renewed (origin : Nat) (rule : Node → Answer) (node : Node) (position : List Nat) :
    Except Overflow Tree :=
  (node.fold (transformStep origin rule) position).result

theorem result_transform (origin : Nat) (rule : Node → Answer) (node : Node) :
    (node.transform origin rule).result =
      node.renewed origin rule [] >>= fun tree => .ok (.top tree) :=
  Outcome.result_bind _ _

/-- A transformation succeeds if the top has a new tree, and its result is the root of that tree. -/
theorem result_transform_eq_ok_iff {root : Node} :
    (node.transform origin rule).result = .ok root ↔
      ∃ tree, node.renewed origin rule [] = .ok tree ∧ root = .top tree := by
  rw [result_transform, bind_eq_ok_iff]
  simp only [Except.ok.injEq, eq_comm]

/-- What becomes of the copy of a node when a part is renewed: a child that has another tree than
before is put into the copy. -/
def renewPart (origin : Nat) (rule : Node → Answer) (node : Node) (position : List Nat)
    (copy : Option Draft) : Part → Except Overflow (Option Draft)
  | .leaf _ => .ok copy
  | .node child =>
    child.renewed origin rule (position ++ [child.index]) >>= fun tree =>
      if tree.id = child.tree.id then .ok copy
      else (copy.getD node.tree.toDraft).replaceChild child.index (.node 0 tree) >>= fun draft =>
        .ok (some draft)

theorem renewed_of_replace {replacement : Node} (h : rule node = .replace replacement) :
    node.renewed origin rule position = .ok replacement.tree := by
  rw [renewed, fold_eq, transformStep, Outcome.result_bind, Outcome.consult, h]
  rfl

/-- A node that is kept is copied if a child changes, and is shared if none does. -/
theorem renewed_of_keep (h : rule node = .keep) :
    node.renewed origin rule position =
      node.parts.foldlM (node.renewPart origin rule position) none >>= fun copy =>
        .ok (copy.elim node.tree fun draft => draft.toTree ⟨origin, position⟩) := by
  have hstep : (fun copy part => (node.transformBranch position copy
      (Part.branch (fold (transformStep origin rule)) part)).result) =
      node.renewPart origin rule position := by
    funext copy part
    cases part with
    | leaf leaf => rfl
    | node child =>
      rw [Part.branch, transformBranch, Outcome.result_bind]
      change child.renewed origin rule _ >>= _ = _
      rw [renewPart]
      congr 1
      funext tree
      split_ifs
      · rfl
      · rw [Outcome.result_bind]
        rfl
  rw [renewed, fold_eq, transformStep, Outcome.result_bind, Outcome.consult, h]
  change (_ >>= _ : Outcome Tree).result = _
  rw [Outcome.result_bind, Outcome.result_foldlM, List.foldlM_map, hstep]
  congr 1
  funext copy
  cases copy <;> rfl

/-! ### The children of the new tree -/

/-- A child that may stand for a part in the new tree of a node: a token as it is, and a node with
its new tree. Where the child stands is left open. -/
def Renews (origin : Nat) (rule : Node → Answer) (position : List Nat) : Part → Child → Prop
  | .leaf leaf, child => ∃ offset, child = .token offset leaf.id leaf.token
  | .node node, child => ∃ offset tree,
      node.renewed origin rule (position ++ [node.index]) = .ok tree ∧ child = .node offset tree

/-- The copy of a node made so far, or the node itself, consists of the given children. -/
structure Copies (node : Node) (copy : Option Draft) (children : List Child) : Prop where
  fits : childrenSize children < wordSize
  draft_eq : copy.getD node.tree.toDraft = .ofChildren node.kind children

/-- Putting a new tree into the copy changes one of its children. -/
theorem Copies.replaceChild {copy : Option Draft} {before after : List Child} {offset : Nat}
    {old new : Tree} {draft : Draft} (h : Copies node copy (before ++ .node offset old :: after))
    (hreplace :
      (copy.getD node.tree.toDraft).replaceChild before.length (.node 0 new) = .ok draft) :
    Copies node (some draft) (before ++ .node 0 new :: after) := by
  rw [h.draft_eq] at hreplace
  have hyields := Draft.yields_replaceChild_ofChildren node.kind
    (before ++ .node offset old :: after) before.length (.node 0 new)
  have hset : (before ++ .node offset old :: after).set before.length (.node 0 new) =
      before ++ .node 0 new :: after := by
    simp
  rw [hset] at hyields
  exact ⟨hyields.of_eq_ok hreplace, (hyields.eq_of_eq_ok hreplace).symm⟩

/-- The loop over the parts: those behind `before` are renewed one after the other. -/
theorem exists_renewed_of_foldlM (rest before : List Child) {copy last : Option Draft}
    (hcopies : Copies node copy (before ++ rest))
    (hfold : (node.partsFrom before.length rest).foldlM (node.renewPart origin rule position) copy =
      .ok last)
    (hid : ∀ child, .node child ∈ node.partsFrom before.length rest → ∀ tree,
      child.renewed origin rule (position ++ [child.index]) = .ok tree →
        tree.id = child.tree.id → tree = child.tree) :
    ∃ renewed,
      List.Forall₂ (Renews origin rule position) (node.partsFrom before.length rest) renewed ∧
        Copies node last (before ++ renewed) := by
  induction rest generalizing before copy with
  | nil =>
    cases hfold
    exact ⟨[], .nil, hcopies⟩
  | cons child rest ih =>
    rw [partsFrom_cons, List.foldlM_cons] at hfold
    -- A child that is not put into the copy moves over to the children that are done.
    have hgo (child' : Child) (copy' : Option Draft)
        (hcopies' : Copies node copy' (before ++ child' :: rest))
        (hrenews : Renews origin rule position (node.part before.length child) child')
        (hrest : (node.partsFrom (before.length + 1) rest).foldlM
          (node.renewPart origin rule position) copy' = .ok last) :
        ∃ renewed, List.Forall₂ (Renews origin rule position)
          (node.partsFrom before.length (child :: rest)) renewed ∧
            Copies node last (before ++ renewed) := by
      have hlength : (before ++ [child']).length = before.length + 1 := by simp
      rw [← hlength] at hrest
      obtain ⟨renewed, hall, hlast⟩ := ih (before ++ [child']) (by simpa using hcopies') hrest
         (by rw [hlength]; exact fun child hmem => hid child (.tail _ hmem))
      rw [hlength] at hall
      exact ⟨child' :: renewed, .cons hrenews hall, by simpa using hlast⟩
    cases child with
    | token offset id token => exact hgo _ copy hcopies ⟨offset, rfl⟩ hfold
    | node offset old =>
      obtain ⟨next, hnext, hrest⟩ := bind_eq_ok_iff.1 hfold
      obtain ⟨new, hnew, hchoice⟩ := bind_eq_ok_iff.1 hnext
      split_ifs at hchoice with hsame
      · cases hchoice
        obtain rfl := hid _ (.head _) new hnew hsame
        exact hgo _ copy hcopies ⟨offset, _, hnew, rfl⟩ hrest
      · obtain ⟨draft, hdraft, hsome⟩ := bind_eq_ok_iff.1 hchoice
        cases hsome
        exact hgo _ _ (hcopies.replaceChild hdraft) ⟨0, new, hnew, rfl⟩ hrest

/-- **A node that is kept has its children renewed**, and is laid out once. It is the old tree, or
has the identity of its place. -/
theorem exists_renewed_children {tree : Tree} (hrule : rule node = .keep)
    (hlaid : node.tree.LaidOut)
    (hid : ∀ child ∈ node.children, ∀ tree,
      child.renewed origin rule (position ++ [child.index]) = .ok tree →
        tree.id = child.tree.id → tree = child.tree)
    (h : node.renewed origin rule position = .ok tree) :
    ∃ children, List.Forall₂ (Renews origin rule position) node.parts children ∧
      childrenSize children < wordSize ∧ tree.toDraft = .ofChildren node.kind children ∧
        (tree = node.tree ∨ tree.id = ⟨origin, position⟩) := by
  rw [renewed_of_keep hrule] at h
  obtain ⟨copy, hfold, htree⟩ := bind_eq_ok_iff.1 h
  have hstart : Copies node none ([] ++ node.tree.children) :=
    ⟨hlaid.childrenSize_eq ▸ hlaid.byteLen_lt, hlaid.toDraft_eq⟩
  obtain ⟨children, hall, hcopies⟩ := exists_renewed_of_foldlM node.tree.children [] hstart hfold
    fun child hmem => hid child (mem_children.2 hmem)
  refine ⟨children, hall, hcopies.fits, ?_⟩
  cases htree
  cases copy with
  | none => exact ⟨hcopies.draft_eq, .inl rfl⟩
  | some draft => exact ⟨hcopies.draft_eq, .inr rfl⟩

/-- Each tree among the new children is the new tree of a node below. -/
theorem exists_of_renews {children : List Child} {index offset : Nat} {sub : Tree}
    (hall : List.Forall₂ (Renews origin rule position) node.parts children)
    (hget : children[index]? = some (.node offset sub)) :
    ∃ child ∈ node.children, child.path = node.path ++ [index] ∧ child.index = index ∧
      child.renewed origin rule (position ++ [index]) = .ok sub := by
  obtain ⟨hlt, hchild⟩ := List.getElem?_eq_some_iff.1 hget
  have hlt' : index < node.parts.length := hall.length_eq ▸ hlt
  have hrenews := (List.forall₂_iff_get.1 hall).2 index hlt' hlt
  rw [List.get_eq_getElem, List.get_eq_getElem, hchild] at hrenews
  have hpart := List.getElem?_eq_getElem hlt'
  cases hcase : node.parts[index] with
  | leaf leaf =>
    rw [hcase] at hrenews
    obtain ⟨_, hleaf⟩ := hrenews
    cases hleaf
  | node child =>
    rw [hcase] at hrenews hpart
    obtain ⟨_, tree, hrenewed, htree⟩ := hrenews
    cases htree
    obtain ⟨start, old, -, rfl⟩ := exists_of_getElem?_parts hpart
    exact ⟨_, mem_children.2 (List.mem_of_getElem? hpart), rfl, rfl, hrenewed⟩

end Node

end LosslessTree
