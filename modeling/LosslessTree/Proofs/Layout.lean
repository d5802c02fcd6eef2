import LosslessTree.Proofs.ByteLength
import LosslessTree.Tree.Draft
import LosslessTree.Tree.Events

/-!
# Trees that are laid out

A tree stores the length of every node and the offset of every child. They carry no information of
their own: in a tree that is laid out each child stands where the one before it ends, and a node is
as long as its children together. Every operation that makes a tree lays its children out, so this
holds of every tree, and offsets can be forgotten in favour of the order of the children.

## Main definitions

* `childrenSize`, `place`: the total length of children, and the children moved to where they
  belong.
* `Draft.ofChildren`: the draft with the given children, laid out.
* `Tree.LaidOut`, `Draft.LaidOut`: lengths and offsets are as they should be, here and below.

## Main results

* `Draft.yields_layOut`: laying out succeeds exactly when the total length fits a word.
* `Draft.yields_push`, `Draft.yields_replaceChild`: the two operations on drafts.
* `Draft.LaidOut.push`, `Tree.LaidOut.ofChildren`: what the operations make is laid out.
* `Tree.LaidOut.byteLen_eq`: the length of a tree is the size of its text.
-/

namespace LosslessTree

/-! ### Placing children -/

namespace Child

/-- The exact length of a child in bytes. -/
def size : Child → Nat
  | token _ _ t => t.size
  | node _ tree => tree.byteLen

@[simp] theorem size_moveTo (start : Nat) (child : Child) :
    (child.moveTo start).size = child.size := by
  cases child <;> rfl

@[simp] theorem moveTo_moveTo (start other : Nat) (child : Child) :
    (child.moveTo other).moveTo start = child.moveTo start := by
  cases child <;> rfl

/-- A child that is appended at `start` ends at the exact sum. -/
theorem measures_stop (start : Nat) (child : Child) :
    Measures (child.byteLen >>= checkedAdd start) (start + child.size) := by
  cases child with
  | token _ _ t => exact Measures.add_left t.measures_byteLen start
  | node _ tree => exact Measures.checkedAdd start tree.byteLen

end Child

/-- The total length of children. -/
def childrenSize : List Child → Nat
  | [] => 0
  | child :: rest => child.size + childrenSize rest

/-- Children moved to where they belong, one after the other from `start` on. -/
def place (start : Nat) : List Child → List Child
  | [] => []
  | child :: rest => child.moveTo start :: place (start + child.size) rest

@[simp] theorem childrenSize_append :
    (front back : List Child) →
      childrenSize (front ++ back) = childrenSize front + childrenSize back
  | [], back => by simp [childrenSize]
  | child :: front, back => by simp [childrenSize, childrenSize_append front back, Nat.add_assoc]

@[simp] theorem childrenSize_place :
    (start : Nat) → (children : List Child) →
      childrenSize (place start children) = childrenSize children
  | _, [] => rfl
  | start, child :: rest => by simp [place, childrenSize, childrenSize_place _ rest]

@[simp] theorem length_place :
    (start : Nat) → (children : List Child) → (place start children).length = children.length
  | _, [] => rfl
  | start, child :: rest => by simp [place, length_place _ rest]

theorem place_append :
    (start : Nat) → (front back : List Child) →
      place start (front ++ back) = place start front ++ place (start + childrenSize front) back
  | start, [], back => by simp [place, childrenSize]
  | start, child :: front, back => by
    simp [place, childrenSize, place_append _ front back, Nat.add_assoc]

/-- Where the children stood before does not matter. -/
@[simp] theorem place_place :
    (start other : Nat) → (children : List Child) →
      place start (place other children) = place start children
  | _, _, [] => rfl
  | start, other, child :: rest => by simp [place, place_place _ _ rest]

/-- Where a child that is put in stood before does not matter either. -/
theorem place_set_place :
    (start other index : Nat) → (children : List Child) → (child : Child) →
      place start ((place other children).set index child) = place start (children.set index child)
  | _, _, _, [], _ => rfl
  | start, other, 0, first :: rest, child => by simp [place]
  | start, other, index + 1, first :: rest, child => by
    simp [place, place_set_place _ _ index rest child]

theorem getElem?_place :
    (start index : Nat) → (children : List Child) →
      (place start children)[index]? =
        children[index]?.map (Child.moveTo (start + childrenSize (children.take index)))
  | _, _, [] => by simp [place]
  | start, 0, child :: rest => by simp [place, childrenSize]
  | start, index + 1, child :: rest => by
    simp [place, getElem?_place _ index rest, childrenSize, Nat.add_assoc]

/-- Putting another child in changes the total length by the difference. -/
theorem childrenSize_set :
    {index : Nat} → {children : List Child} → {old : Child} → children[index]? = some old →
      (new : Child) →
        childrenSize (children.set index new) + old.size = childrenSize children + new.size
  | 0, child :: rest, old, h, new => by
    obtain rfl : child = old := by simpa using h
    simp only [List.set_cons_zero, childrenSize]
    omega
  | index + 1, child :: rest, old, h, new => by
    have ih := childrenSize_set (List.getElem?_cons_succ ▸ h : rest[index]? = some old) new
    simp only [List.set_cons_succ, childrenSize]
    omega

/-- A tree that is placed keeps its index. -/
theorem exists_getElem?_of_place {start index offset : Nat} {sub : Tree} {children : List Child}
    (h : (place start children)[index]? = some (.node offset sub)) :
    ∃ old, children[index]? = some (.node old sub) := by
  rw [getElem?_place] at h
  obtain ⟨child, hchild, hmoved⟩ := Option.map_eq_some_iff.1 h
  cases child with
  | token => cases hmoved
  | node old tree =>
    cases hmoved
    exact ⟨old, hchild⟩

/-- A placed tree is one of the trees that were placed. -/
theorem exists_mem_of_mem_place {start offset : Nat} {sub : Tree} {children : List Child}
    (h : .node offset sub ∈ place start children) : ∃ old, .node old sub ∈ children := by
  obtain ⟨index, hindex⟩ := List.mem_iff_getElem?.1 h
  obtain ⟨old, hold⟩ := exists_getElem?_of_place hindex
  exact ⟨old, List.mem_of_getElem? hold⟩

/-! ### Operations on drafts -/

namespace Draft

/-- **Laying out succeeds exactly when the total length fits a word**, and then it moves every child
to where it belongs. -/
theorem yields_layOut {start : Nat} (hstart : start < wordSize) (children : List Child) :
    Yields (layOut start children) (start + childrenSize children < wordSize)
      (place start children, start + childrenSize children) := by
  induction children generalizing start with
  | nil => exact .ok (by simpa [childrenSize] using hstart) _
  | cons child rest ih =>
    have hunfold : layOut start (child :: rest) =
        (child.byteLen >>= checkedAdd start) >>= fun next =>
          layOut next rest >>= fun result => .ok (child.moveTo start :: result.1, result.2) := by
      rw [bind_assoc]
      rfl
    rw [hunfold, place, childrenSize, ← Nat.add_assoc]
    exact (child.measures_stop start).bind (Nat.lt_of_le_of_lt (Nat.le_add_right _ _)) fun hnext =>
      (ih hnext).map _

/-- The draft with the given children, laid out. -/
def ofChildren (kind : NodeKind) (children : List Child) : Draft :=
  ⟨kind, childrenSize children, place 0 children⟩

/-- Appending a child succeeds exactly when the new length fits a word. -/
theorem yields_push (draft : Draft) (child : Child) :
    Yields (draft.push child) (draft.byteLen + child.size < wordSize)
      ⟨draft.kind, draft.byteLen + child.size,
        draft.children ++ [child.moveTo draft.byteLen]⟩ := by
  have hunfold : draft.push child = (child.byteLen >>= checkedAdd draft.byteLen) >>= fun byteLen =>
      .ok ⟨draft.kind, byteLen, draft.children ++ [child.moveTo draft.byteLen]⟩ := by
    rw [bind_assoc]
    rfl
  rw [hunfold]
  exact (child.measures_stop draft.byteLen).map _

/-- Replacing a child succeeds exactly when the new total length fits a word. -/
theorem yields_replaceChild (draft : Draft) (index : Nat) (child : Child) :
    Yields (draft.replaceChild index child)
      (childrenSize (draft.children.set index child) < wordSize)
      (ofChildren draft.kind (draft.children.set index child)) := by
  have hlay := yields_layOut (by decide : 0 < wordSize) (draft.children.set index child)
  rw [Nat.zero_add] at hlay
  exact hlay.map fun result => (⟨draft.kind, result.2, result.1⟩ : Draft)

/-- Replacing a child of a draft that is laid out: where the children stood does not matter. -/
theorem yields_replaceChild_ofChildren (kind : NodeKind) (children : List Child) (index : Nat)
    (child : Child) :
    Yields ((ofChildren kind children).replaceChild index child)
      (childrenSize (children.set index child) < wordSize)
      (ofChildren kind (children.set index child)) := by
  have hsize : childrenSize ((place 0 children).set index child) =
      childrenSize (children.set index child) := by
    rw [← childrenSize_place 0, place_set_place, childrenSize_place]
  have hyields := (ofChildren kind children).yields_replaceChild index child
  simpa only [ofChildren, place_set_place, hsize] using hyields

end Draft

/-! ### Trees that are laid out -/

/-- A tree is laid out if its children stand one after the other from its start on, its length is
their total length and fits a word, and the same holds of every tree below. -/
inductive Tree.LaidOut : Tree → Prop
  | intro {tree : Tree} (fits : childrenSize tree.children < wordSize)
      (byteLen : tree.byteLen = childrenSize tree.children)
      (placed : place 0 tree.children = tree.children)
      (below : ∀ {offset sub}, .node offset sub ∈ tree.children → sub.LaidOut) : tree.LaidOut

/-- A draft is laid out if the tree made from it is. -/
def Draft.LaidOut (draft : Draft) : Prop :=
  ∀ id, (draft.toTree id).LaidOut

namespace Tree.LaidOut

variable {tree : Tree}

theorem childrenSize_eq (h : tree.LaidOut) : childrenSize tree.children = tree.byteLen := by
  cases h with
  | intro _ hlen _ _ => exact hlen.symm

theorem byteLen_lt (h : tree.LaidOut) : tree.byteLen < wordSize := by
  cases h with
  | intro hfits hlen _ _ => omega

theorem place_children (h : tree.LaidOut) : place 0 tree.children = tree.children := by
  cases h with
  | intro _ _ hplaced _ => exact hplaced

theorem of_mem (h : tree.LaidOut) {offset : Nat} {sub : Tree}
    (hmem : .node offset sub ∈ tree.children) : sub.LaidOut := by
  cases h with
  | intro _ _ _ hbelow => exact hbelow hmem

/-- A tree with these children, laid out, under any identity. -/
theorem ofChildren {children : List Child} (fits : childrenSize children < wordSize)
    (below : ∀ {offset sub}, .node offset sub ∈ children → sub.LaidOut) (id : Ident)
    (kind : NodeKind) : ((Draft.ofChildren kind children).toTree id).LaidOut := by
  refine .intro ?_ ?_ ?_ ?_
  · simpa [Draft.ofChildren, Draft.toTree] using fits
  · simp [Draft.ofChildren, Draft.toTree]
  · simp [Draft.ofChildren, Draft.toTree]
  · intro offset sub hmem
    obtain ⟨old, hold⟩ := exists_mem_of_mem_place hmem
    exact below hold

/-- A tree that is laid out is made of its own children. -/
theorem toDraft_eq (h : tree.LaidOut) : tree.toDraft = .ofChildren tree.kind tree.children := by
  rw [Tree.toDraft, Draft.ofChildren, h.place_children, h.childrenSize_eq]

/-- Each child stands where the children before it end. -/
theorem offset_eq (h : tree.LaidOut) {index : Nat} {child : Child}
    (hchild : tree.children[index]? = some child) :
    child.offset = childrenSize (tree.children.take index) := by
  have hplaced := getElem?_place 0 index tree.children
  rw [h.place_children, hchild, Option.map_some, Option.some_inj] at hplaced
  rw [hplaced]
  cases child <;> simp [Child.moveTo, Child.offset]

end Tree.LaidOut

/-! ### Lengths and texts -/

/-- The children of laid out trees are as long as their texts. -/
theorem childrenSize_eq_utf8ByteSize :
    (children : List Child) →
      (∀ offset sub, .node offset sub ∈ children → sub.byteLen = sub.text.utf8ByteSize) →
        childrenSize children = (childrenText children).utf8ByteSize
  | [], _ => rfl
  | .token _ _ token :: rest, h => by
    have ih := childrenSize_eq_utf8ByteSize rest fun offset sub hmem => h offset sub (.tail _ hmem)
    simp [childrenSize, childrenText, Child.size, Token.size, ih]
  | .node offset tree :: rest, h => by
    have ih := childrenSize_eq_utf8ByteSize rest fun offset sub hmem => h offset sub (.tail _ hmem)
    have htree := h offset tree (.head _)
    simp [childrenSize, childrenText, Child.size, htree, ih]

/-- **The length of a tree is the size of its text.** -/
theorem Tree.LaidOut.byteLen_eq {tree : Tree} (h : tree.LaidOut) :
    tree.byteLen = tree.text.utf8ByteSize := by
  induction h with
  | @intro tree _ hlen _ _ ih =>
    have hchildren := childrenSize_eq_utf8ByteSize tree.children fun offset sub hmem => ih hmem
    cases tree
    exact hlen.trans hchildren

namespace Draft

theorem laidOut_empty (kind : NodeKind) : (empty kind).LaidOut := by
  intro id
  exact .intro (by simp [empty, toTree, childrenSize, wordSize]) rfl rfl (by simp [empty, toTree])

/-- **Appending keeps a draft laid out.** -/
theorem LaidOut.push {draft grown : Draft} {child : Child} (h : draft.LaidOut)
    (hchild : ∀ {offset sub}, child = .node offset sub → sub.LaidOut)
    (hpush : draft.push child = .ok grown) : grown.LaidOut := by
  intro id
  obtain ⟨hfits, rfl⟩ := (yields_push draft child grown).1 hpush
  have hsize : childrenSize draft.children = draft.byteLen := (h id).childrenSize_eq
  have hplace : place 0 draft.children = draft.children := (h id).place_children
  refine .intro ?_ ?_ ?_ ?_
  · simpa [toTree, childrenSize, hsize] using hfits
  · simp [toTree, childrenSize, hsize]
  · simp [toTree, place_append, place, hplace, hsize]
  · intro offset sub hmem
    rcases List.mem_append.1 hmem with hmem | hmem
    · exact (h id).of_mem hmem
    · have hmoved := (List.mem_singleton.1 hmem).symm
      cases child with
      | token => cases hmoved
      | node old tree =>
        cases hmoved
        exact hchild rfl

end Draft

end LosslessTree
