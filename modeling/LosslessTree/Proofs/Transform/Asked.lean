import LosslessTree.Proofs.Transform.Renewed
import LosslessTree.Proofs.Within

/-!
# What a transformation asks, and what it shares

A transformation records each node that it asks its rule about. If no length overflows, the record
of a node that is kept is the node itself, followed by the records of its children; below a node
that is replaced nothing is asked. What was asked decides what is shared: the new tree is the old
one, identity included, exactly if every replacement on record has the identity of the tree that it
replaces.

## Main definitions

* `Node.consulted`: what is asked about a node and below it.
* `Consultation.Changes`: a tree is replaced by another one.

## Main results

* `Node.consulted_of_replace`, `Node.consulted_of_keep`: the two answers of a rule.
* `Node.id_renewed_ne_iff`: the new tree is another one than the old one exactly if something
  changes.
-/

namespace LosslessTree

namespace Outcome

variable {α β : Type}

theorem asked_bind_of_ok {outcome : Outcome α} {a : α} (h : outcome.result = .ok a)
    (next : α → Outcome β) : (outcome >>= next).asked = outcome.asked ++ (next a).asked := by
  rcases outcome with ⟨asked, result⟩
  cases h
  rfl

/-- Going on with a step that asks nothing leaves the record as it is. -/
theorem asked_bind_of_silent (outcome : Outcome α) {next : α → Outcome β}
    (h : ∀ a, (next a).asked = []) : (outcome >>= next).asked = outcome.asked := by
  rcases outcome with ⟨asked, _ | a⟩
  · rfl
  · change asked ++ (next a).asked = asked
    rw [h, List.append_nil]

/-- If the steps of a loop ask the same whatever the state, and the loop comes to its end, it asks
what its steps ask one after the other. -/
theorem asked_foldlM {f : α → β → Outcome α} {asks : β → List Consultation}
    (hasks : ∀ a b, (f a b).asked = asks b) (items : List β) {init last : α}
    (hok : (items.foldlM f init).result = .ok last) :
    (items.foldlM f init).asked = items.flatMap asks := by
  induction items generalizing init with
  | nil => rfl
  | cons item rest ih =>
    rw [List.foldlM_cons] at hok ⊢
    rw [result_bind] at hok
    obtain ⟨next, hnext, hrest⟩ := bind_eq_ok_iff.1 hok
    rw [asked_bind_of_ok hnext, hasks, ih hrest, List.flatMap_cons]

end Outcome

/-- A consultation by which a tree is replaced by another one. -/
def Consultation.Changes (consultation : Consultation) : Prop :=
  ∃ replacement, consultation.answer = .replace replacement ∧
    replacement.tree.id ≠ consultation.node.tree.id

namespace Node

variable {origin : Nat} {rule : Node → Answer} {node : Node} {position : List Nat}

/-- What a transformation asks about a node and below it, where the node is at a place of the
result. -/
def consulted (origin : Nat) (rule : Node → Answer) (node : Node) (position : List Nat) :
    List Consultation :=
  (node.fold (transformStep origin rule) position).asked

theorem asked_transform (origin : Nat) (rule : Node → Answer) (node : Node) :
    (node.transform origin rule).asked = node.consulted origin rule [] :=
  Outcome.asked_bind_of_silent _ fun _ => rfl

theorem consulted_of_replace {replacement : Node} (h : rule node = .replace replacement) :
    node.consulted origin rule position = [⟨node, .replace replacement⟩] := by
  rw [consulted, fold_eq, transformStep, Outcome.consult, h]
  rfl

/-- What is asked about a part of a node that is kept: nothing if it is a token. -/
def partConsulted (origin : Nat) (rule : Node → Answer) (position : List Nat) :
    Part → List Consultation :=
  Part.elim (fun child => child.consulted origin rule (position ++ [child.index])) fun _ => []

theorem asked_transformBranch (node : Node) (copy : Option Draft) (part : Part) :
    (node.transformBranch position copy
      (Part.branch (fold (transformStep origin rule)) part)).asked =
        partConsulted origin rule position part := by
  cases part with
  | leaf leaf => rfl
  | node child =>
    refine Outcome.asked_bind_of_silent _ fun tree => ?_
    split_ifs
    · rfl
    · exact Outcome.asked_bind_of_silent _ fun _ => rfl

/-- About a node that is kept, the node itself is asked first, and then its children in order. -/
theorem consulted_of_keep {tree : Tree} (h : rule node = .keep)
    (hok : node.renewed origin rule position = .ok tree) :
    node.consulted origin rule position =
      ⟨node, .keep⟩ :: node.parts.flatMap (partConsulted origin rule position) := by
  rw [renewed, fold_eq, transformStep, Outcome.result_bind, Outcome.consult, h] at hok
  rw [consulted, fold_eq, transformStep, Outcome.consult, h]
  change (_ >>= _ : Outcome Tree).result = _ at hok
  rw [Outcome.result_bind, List.foldlM_map] at hok
  obtain ⟨copy, hfold, -⟩ := bind_eq_ok_iff.1 hok
  have hasked := Outcome.asked_foldlM (fun copy part => node.asked_transformBranch copy part)
    node.parts hfold
  rw [Outcome.asked_bind_of_ok rfl, Outcome.asked_bind_of_silent, List.foldlM_map, hasked]
  · rfl
  · rintro (_ | draft) <;> rfl

/-- A change among what is asked about a node that is kept is asked about one of its children. -/
theorem exists_changes_of_keep {tree : Tree} (h : rule node = .keep)
    (hok : node.renewed origin rule position = .ok tree) :
    (∃ asked ∈ node.consulted origin rule position, asked.Changes) ↔
      ∃ child, .node child ∈ node.parts ∧
        ∃ asked ∈ child.consulted origin rule (position ++ [child.index]), asked.Changes := by
  rw [consulted_of_keep h hok]
  constructor
  · rintro ⟨asked, hasked, hchanges⟩
    rcases List.mem_cons.1 hasked with rfl | hbelow
    · obtain ⟨replacement, hanswer, -⟩ := hchanges
      cases hanswer
    · obtain ⟨part, hpart, hasked⟩ := List.mem_flatMap.1 hbelow
      cases part with
      | leaf leaf => cases hasked
      | node child => exact ⟨child, hpart, asked, hasked, hchanges⟩
  · rintro ⟨child, hchild, asked, hasked, hchanges⟩
    exact ⟨asked, .tail _ (List.mem_flatMap.2 ⟨_, hchild, hasked⟩), hchanges⟩

/-! ### Sharing -/

/-- The new tree of a child is another one than its old tree. -/
def Altered (origin : Nat) (rule : Node → Answer) (position : List Nat) (child : Node) : Prop :=
  ∃ tree, child.renewed origin rule (position ++ [child.index]) = .ok tree ∧
    tree.id ≠ child.tree.id

/-- A part is put into the copy of a node exactly if it is a child with another tree. -/
theorem isSome_of_renewPart {copy next : Option Draft} {part : Part}
    (h : node.renewPart origin rule position copy part = .ok next) :
    next.isSome = true ↔
      copy.isSome = true ∨ ∃ child, part = .node child ∧ Altered origin rule position child := by
  cases part with
  | leaf leaf =>
    cases h
    simp
  | node child =>
    obtain ⟨tree, hok, hchoice⟩ := bind_eq_ok_iff.1 h
    have haltered : Altered origin rule position child ↔ tree.id ≠ child.tree.id := by
      simp [Altered, hok]
    split_ifs at hchoice with hsame
    · cases hchoice
      simp [haltered, hsame]
    · obtain ⟨draft, -, hsome⟩ := bind_eq_ok_iff.1 hchoice
      cases hsome
      simp [haltered, hsame]

/-- The loop over the parts ends with a copy of the node exactly if there was one before or some
child has another tree; and it renews every child. -/
theorem isSome_of_foldlM_renewPart (parts : List Part) {copy last : Option Draft}
    (h : parts.foldlM (node.renewPart origin rule position) copy = .ok last) :
    (last.isSome = true ↔ copy.isSome = true ∨
      ∃ child, .node child ∈ parts ∧ Altered origin rule position child) ∧
    ∀ child, .node child ∈ parts →
      ∃ tree, child.renewed origin rule (position ++ [child.index]) = .ok tree := by
  induction parts generalizing copy with
  | nil =>
    cases h
    simp
  | cons part rest ih =>
    rw [List.foldlM_cons] at h
    obtain ⟨next, hnext, hrest⟩ := bind_eq_ok_iff.1 h
    obtain ⟨hlast, hall⟩ := ih hrest
    constructor
    · rw [hlast, isSome_of_renewPart hnext]
      simp only [List.mem_cons, or_and_right, exists_or, or_assoc, eq_comm]
    · intro child hchild
      rcases List.mem_cons.1 hchild with rfl | hmem
      · obtain ⟨tree, hok, -⟩ := bind_eq_ok_iff.1 hnext
        exact ⟨tree, hok⟩
      · exact hall child hmem

/-- A node that is kept gets another tree exactly if one of its children does. -/
theorem id_renewed_ne_iff_of_keep {tree : Tree} (h : rule node = .keep)
    (hold : node.tree.id.origin ≠ origin)
    (hok : node.renewed origin rule position = .ok tree) :
    tree.id ≠ node.tree.id ↔
      ∃ child, .node child ∈ node.parts ∧ Altered origin rule position child := by
  rw [renewed_of_keep h] at hok
  obtain ⟨copy, hfold, htree⟩ := bind_eq_ok_iff.1 hok
  have hcopy := (isSome_of_foldlM_renewPart node.parts hfold).1
  rw [Option.isSome_none, Bool.false_eq_true, false_or] at hcopy
  rw [← hcopy]
  cases htree
  cases copy with
  | none => simp
  | some draft =>
    simp only [Option.isSome_some, iff_true]
    intro hid
    exact hold (congrArg Ident.origin hid).symm

/-- **The new tree is another one exactly if something changes**: among all that was asked there is
a replacement with another identity than the tree that it replaces. -/
theorem id_renewed_ne_iff {tree : Tree}
    (hold : ∀ below, node.Within below → below.tree.id.origin ≠ origin)
    (hok : node.renewed origin rule position = .ok tree) :
    tree.id ≠ node.tree.id ↔
      ∃ asked ∈ node.consulted origin rule position, asked.Changes := by
  induction node using Node.induction generalizing position tree with
  | step node ih =>
    cases hanswer : rule node with
    | replace replacement =>
      rw [renewed_of_replace hanswer] at hok
      cases hok
      simp [consulted_of_replace hanswer, Consultation.Changes]
    | keep =>
      rw [exists_changes_of_keep hanswer hok,
        id_renewed_ne_iff_of_keep hanswer (hold node (.refl node)) hok]
      rw [renewed_of_keep hanswer] at hok
      obtain ⟨copy, hfold, -⟩ := bind_eq_ok_iff.1 hok
      have hrenewed := (isSome_of_foldlM_renewPart node.parts hfold).2
      refine exists_congr fun child => and_congr_right fun hchild => ?_
      obtain ⟨new, hnew⟩ := hrenewed child hchild
      have hmem := mem_children.2 hchild
      have hchanges := ih child hmem (fun below hbelow => hold below (.head hmem hbelow)) hnew
      simpa [Altered, hnew] using hchanges

end Node

end LosslessTree
