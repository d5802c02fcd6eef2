import LosslessTree.Proofs.Transform.Provenance

/-!
# Replacing a single node

The rule that replaces one node of a tree and keeps all others looks for its target by the test for
being the same node. In the tree of the target it hits the target and nothing else, also if the tree
of the target stands at other places too. The nodes on the way down to the target are copied, each
with one child replaced, and everything beside them is shared.

## Main definitions

* `Node.only target replacement`: the rule that replaces the target.

## Main results

* `Node.Transformable.only`: a new tree may be put in place of a node.
* `Node.renewed_of_forall_keep`: without a change the old tree comes out.
* `Node.Within.yields_renewed_only`: replacing a node succeeds exactly if the new length of the
  whole tree fits a word.
-/

namespace LosslessTree.Node

variable {kept : Tree → Prop} {origin : Nat} {rule : Node → Answer} {node : Node}
  {position : List Nat}

/-- The rule that replaces one node and keeps all others. -/
def only (target replacement : Node) (node : Node) : Answer :=
  if node == target then .replace replacement else .keep

theorem only_self (target replacement : Node) :
    only target replacement target = .replace replacement :=
  if_pos target.same_self

theorem Within.only_of_ne {tree : Tree} {target : Node} (h : (top tree).Within node)
    (htarget : (top tree).Within target) (hne : node ≠ target) (replacement : Node) :
    only target replacement node = .keep := by
  have hother : ¬(node == target) = true := fun hsame => hne ((h.beq_iff_eq htarget).1 hsame)
  exact if_neg hother

/-- The rule keeps everything beside the child that leads to the target. -/
theorem Within.only_of_sibling {tree : Tree} {start child target other below : Node}
    (hstart : (top tree).Within start) (hchild : child ∈ start.children)
    (htarget : child.Within target)
    (hother : .node other ∈ start.parts.take child.index ++ start.parts.drop (child.index + 1))
    (hbelow : other.Within below) (replacement : Node) :
    only target replacement below = .keep := by
  obtain ⟨hmem, hindex⟩ := index_ne_of_mem hother
  exact ((hstart.tail hmem).trans hbelow).only_of_ne ((hstart.tail hchild).trans htarget)
    (ne_of_index_ne hchild hmem hindex htarget hbelow) replacement

/-- **A new tree may be put in place of a node**, provided that it was made for that place. -/
theorem Transformable.only {tree new : Tree} {target : Node} (hold : kept tree)
    (hlaid : tree.LaidOut) (htarget : (top tree).Within target) (hnew : new.LaidOut)
    (hmade : new.MadeBy kept ⟨origin, target.path⟩) :
    (top tree).Transformable kept origin (only target (top new)) [] where
  old := hold
  laidOut := hlaid
  replaces below replacement place hbelow hpath hanswer := by
    by_cases htop : below = target
    · subst htop
      rw [only_self] at hanswer
      cases hanswer
      have hplace : below.path = place := by simpa using hpath
      simpa [← hplace] using And.intro hnew hmade
    · rw [hbelow.only_of_ne htarget htop] at hanswer
      cases hanswer

/-! ### One child that changes -/

/-- Parts that stay as they are do not touch the copy. -/
theorem foldlM_renewPart_of_unchanged (parts : List Part) (copy : Option Draft)
    (h : ∀ child, .node child ∈ parts →
      child.renewed origin rule (position ++ [child.index]) = .ok child.tree) :
    parts.foldlM (node.renewPart origin rule position) copy = .ok copy := by
  induction parts with
  | nil => rfl
  | cons part rest ih =>
    have hpart : node.renewPart origin rule position copy part = .ok copy := by
      cases part with
      | leaf leaf => rfl
      | node child =>
        rw [renewPart, h child (.head _)]
        exact if_pos rfl
    rw [List.foldlM_cons, hpart]
    exact ih fun child hmem => h child (.tail _ hmem)

/-- Without a change the old tree comes out. -/
theorem renewed_of_forall_keep (h : ∀ below, node.Within below → rule below = .keep) :
    node.renewed origin rule position = .ok node.tree := by
  induction node using Node.induction generalizing position with
  | step node ih =>
    have hchildren (child : Node) (hchild : .node child ∈ node.parts) :
        child.renewed origin rule (position ++ [child.index]) = .ok child.tree := by
      have hmem := mem_children.2 hchild
      exact ih child hmem fun below hbelow => h below (.head hmem hbelow)
    rw [renewed_of_keep (h node (.refl node)), foldlM_renewPart_of_unchanged _ _ hchildren]
    rfl

/-- If a single child may change, its new tree is put into a copy of the node. -/
theorem renewed_of_one_child {child : Node} {front back : List Part} (hrule : rule node = .keep)
    (hparts : node.parts = front ++ .node child :: back)
    (hrest : ∀ other, .node other ∈ front ++ back →
      other.renewed origin rule (position ++ [other.index]) = .ok other.tree) :
    node.renewed origin rule position =
      node.renewPart origin rule position none (.node child) >>= fun copy =>
        .ok (copy.elim node.tree fun draft => draft.toTree ⟨origin, position⟩) := by
  have hfront (copy : Option Draft) : front.foldlM (node.renewPart origin rule position) copy =
      .ok copy :=
    foldlM_renewPart_of_unchanged front copy fun other hmem =>
      hrest other (List.mem_append_left _ hmem)
  have hback (copy : Option Draft) : back.foldlM (node.renewPart origin rule position) copy =
      .ok copy :=
    foldlM_renewPart_of_unchanged back copy fun other hmem =>
      hrest other (List.mem_append_right _ hmem)
  rw [renewed_of_keep hrule, hparts, List.foldlM_append, hfront]
  change (List.foldlM _ none (.node child :: back) >>= _) = _
  rw [List.foldlM_cons, bind_assoc]
  congr 1
  funext copy
  rw [hback]
  rfl

/-- If a single child changes for sure, the node is laid out with the new tree in it. -/
theorem yields_of_one_child {child : Node} {front back : List Part} {fits : Prop} {new : Tree}
    (hlaid : node.tree.LaidOut) (hrule : rule node = .keep)
    (hparts : node.parts = front ++ .node child :: back)
    (hrest : ∀ other, .node other ∈ front ++ back →
      other.renewed origin rule (position ++ [other.index]) = .ok other.tree)
    (hchild : Yields (child.renewed origin rule (position ++ [child.index])) fits new)
    (hnew : new.id ≠ child.tree.id)
    (hfits : childrenSize (node.tree.children.set child.index (.node 0 new)) < wordSize → fits) :
    Yields (node.renewed origin rule position)
      (childrenSize (node.tree.children.set child.index (.node 0 new)) < wordSize)
      ((Draft.ofChildren node.kind (node.tree.children.set child.index (.node 0 new))).toTree
        ⟨origin, position⟩) := by
  have hreplace := Draft.yields_replaceChild_ofChildren node.kind node.tree.children child.index
    (.node 0 new)
  have hdraft : node.tree.toDraft = .ofChildren node.kind node.tree.children := hlaid.toDraft_eq
  have hpart : Yields (node.renewPart origin rule position none (.node child))
      (childrenSize (node.tree.children.set child.index (.node 0 new)) < wordSize)
      (some (.ofChildren node.kind (node.tree.children.set child.index (.node 0 new)))) := by
    refine hchild.bind hfits fun _ => ?_
    rw [if_neg hnew, Option.getD_none, hdraft]
    exact hreplace.map some
  rw [renewed_of_one_child hrule hparts hrest]
  exact hpart.map _

/-- The length of a node after a node below it was replaced: all that stands beside the target keeps
its length. -/
def lengthWith (node target : Node) (new : Tree) : Nat :=
  node.byteLen - target.byteLen + new.byteLen

/-- A node is at least as long as a node below it. -/
theorem Within.byteLen_le {start : Node} (h : start.Within node) (hlaid : start.tree.LaidOut) :
    node.byteLen ≤ start.byteLen := by
  obtain ⟨front, back, hevents, -⟩ := h.exists_split hlaid
  have hsize := congrArg streamSize hevents
  simp only [streamSize_append, hlaid.streamSize_events, (h.laidOut hlaid).streamSize_events]
    at hsize
  simp only [byteLen]
  omega

/-- **Replacing a node succeeds exactly if the new length of the whole tree fits a word.** -/
theorem Within.yields_renewed_only {tree new : Tree} {start target : Node}
    (hbelow : start.Within target) (hstart : (top tree).Within start) (hlaid : tree.LaidOut)
    (hold : ∀ node, (top tree).Within node → node.tree.id.origin ≠ origin)
    (hfits : new.byteLen < wordSize) (horigin : new.id.origin = origin) (position : List Nat) :
    ∃ result, result.byteLen = start.lengthWith target new ∧ result.id.origin = origin ∧
      Yields (start.renewed origin (only target (top new)) position)
        (start.lengthWith target new < wordSize) result := by
  induction hbelow using Relation.ReflTransGen.head_induction_on generalizing position with
  | refl =>
    have hsame : target.lengthWith target new = new.byteLen := by simp [lengthWith]
    rw [hsame, renewed_of_replace (only_self target (top new))]
    exact ⟨new, rfl, horigin, .ok hfits new⟩
  | @head start child hchild hbelow ih =>
    have htarget : (top tree).Within target := hstart.trans (.head hchild hbelow)
    obtain ⟨result, hlen, hresult, hyields⟩ := ih (hstart.tail hchild) (position ++ [child.index])
    have hparts := parts_eq_append (getElem?_parts_of_mem_children hchild)
    have hkeep := hstart.only_of_ne htarget (ne_of_mem_children hchild hbelow) (top new)
    have hrest (other : Node) (hmem : .node other ∈ start.parts.take child.index ++
        start.parts.drop (child.index + 1)) :
        other.renewed origin (only target (top new)) (position ++ [other.index]) =
          .ok other.tree :=
      renewed_of_forall_keep fun below hwithin =>
        hstart.only_of_sibling hchild hbelow hmem hwithin (top new)
    obtain ⟨index, offset, sub, hget, rfl⟩ := mem_children_iff.1 hchild
    have hnew : result.id ≠ sub.id := by
      intro hid
      refine hold _ (hstart.tail hchild) ?_
      rw [tree_inner, ← hid, hresult]
    -- The other children keep their lengths, so the lengths differ by what was put in.
    have hsize := childrenSize_set hget (.node 0 result)
    have hlonger := (of_mem_children hchild).byteLen_le (hstart.laidOut hlaid)
    have hlonger' := Within.byteLen_le hbelow ((hstart.tail hchild).laidOut hlaid)
    rw [(hstart.laidOut hlaid).childrenSize_eq] at hsize
    simp only [Child.size, byteLen, lengthWith, tree_inner] at hsize hlonger hlonger' hlen hyields ⊢
    have htotal : childrenSize (start.tree.children.set index (.node 0 result)) =
        start.tree.byteLen - target.tree.byteLen + new.byteLen := by
      omega
    rw [← htotal]
    refine ⟨_, rfl, rfl,
      yields_of_one_child (hstart.laidOut hlaid) hkeep hparts hrest hyields hnew ?_⟩
    intro hless
    change childrenSize (start.tree.children.set index (.node 0 result)) < wordSize at hless
    omega

end LosslessTree.Node
