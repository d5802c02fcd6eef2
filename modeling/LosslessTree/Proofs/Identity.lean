import LosslessTree.Proofs.Forest
import LosslessTree.Proofs.Navigation
import LosslessTree.Proofs.Transform.Asked

/-!
# One node, one place in one tree

Nodes in place are made anew each time somebody looks at them, so being the same node cannot mean
being the same value in memory. The test compares offsets, indices and identities here and all the
way up. What it decides is where a node stands: two nodes that a run can get hold of are the same
exactly if their roots are the same tree and the ways down from there are the same. Two tokens are
the same exactly if they stand at the same index below the same node.

So trees that were made apart have no node in common, whatever their text, and a transformation that
changes something leaves no node of the old tree in the new one; and a tree that is shared by
several places makes a different node at each of them.

## Main definitions

* `Forest.Obtains`: the nodes and tokens that can be got hold of by navigation in the trees of a
  run.

## Main results

* `Forest.obtains_iff_reaches`: navigation reaches the nodes and tokens of the trees, and nothing
  else.
* `Forest.Sound.beq_iff_root_id_eq`, `Forest.Sound.leaf_beq_iff`: when nodes and tokens are the
  same.
* `Node.Reaches.beq_eq_false`: different trees have nothing in common.
* `Forest.Reachable.same_iff_same_place`: identity is place.
-/

namespace LosslessTree

/-! ### What can be got hold of -/

namespace Node

variable {start node : Node} {leaf : Leaf}

/-- What can be reached from a node below can be reached. -/
theorem Within.reaches {part : Part} (h : start.Within node) (hpart : node.Reaches part) :
    start.Reaches part := by
  cases part with
  | node below => exact h.trans hpart
  | leaf leaf =>
    obtain ⟨above, habove, hmem⟩ := hpart
    exact ⟨above, h.trans habove, hmem⟩

theorem reaches_of_mem_parts {part : Part} (h : part ∈ node.parts) : node.Reaches part := by
  cases part with
  | node child => exact .of_mem_children (mem_children.2 h)
  | leaf leaf => exact ⟨node, .refl node, h⟩

/-- A token that is found below one part of a node can be reached from the node. -/
theorem reaches_of_elim {found : Node → Option Leaf} {part : Part} (hpart : part ∈ node.parts)
    (h : Part.elim found some part = some leaf)
    (hbelow : ∀ child ∈ node.children, found child = some leaf → child.Reaches (.leaf leaf)) :
    node.Reaches (.leaf leaf) := by
  cases part with
  | leaf other =>
    cases h
    exact reaches_of_mem_parts hpart
  | node child =>
    have hchild := mem_children.2 hpart
    exact (Within.of_mem_children hchild).reaches (hbelow child hchild h)

theorem reaches_of_firstToken? (h : node.firstToken? = some leaf) : node.Reaches (.leaf leaf) := by
  induction node using Node.induction with
  | step node ih =>
    rw [firstToken?_eq] at h
    obtain ⟨part, hpart, hfound⟩ := List.exists_of_findSome?_eq_some h
    exact reaches_of_elim hpart hfound fun child hchild => ih child hchild

theorem reaches_of_lastToken? (h : node.lastToken? = some leaf) : node.Reaches (.leaf leaf) := by
  induction node using Node.induction with
  | step node ih =>
    rw [lastToken?_eq] at h
    obtain ⟨part, hpart, hfound⟩ := List.mem_filterMap.1 (List.mem_of_getLast? h)
    exact reaches_of_elim hpart hfound fun child hchild => ih child hchild

/-- A token is found below its parent, at its index. -/
theorem parent_eq_of_mem_parts (h : .leaf leaf ∈ node.parts) :
    leaf.parent = node ∧ node.parts[leaf.index]? = some (.leaf leaf) := by
  obtain ⟨index, hget⟩ := List.mem_iff_getElem?.1 h
  obtain ⟨hparent, rfl⟩ := parent_eq_of_getElem?_parts hget
  exact ⟨hparent, hget⟩

end Node

namespace Forest

variable {forest : Forest}

/-- The nodes and tokens that can be got hold of by navigation, from the roots of the trees on. -/
inductive Obtains (forest : Forest) : Part → Prop
  | root {tree : Tree} (h : tree ∈ forest.trees) : Obtains forest (.node (.top tree))
  /-- A part directly below a node, be it looked up among all parts, the nodes or the tokens. -/
  | part {node : Node} {part : Part} (h : Obtains forest (.node node)) (hpart : part ∈ node.parts) :
      Obtains forest part
  | parent {node parent : Node} (h : Obtains forest (.node node))
      (hparent : node.parent? = some parent) : Obtains forest (.node parent)
  | top {node : Node} (h : Obtains forest (.node node)) : Obtains forest (.node node.root)
  | nextSibling {node sibling : Node} (h : Obtains forest (.node node))
      (hsibling : node.nextSibling? = some sibling) : Obtains forest (.node sibling)
  | firstToken {node : Node} {leaf : Leaf} (h : Obtains forest (.node node))
      (hleaf : node.firstToken? = some leaf) : Obtains forest (.leaf leaf)
  | lastToken {node : Node} {leaf : Leaf} (h : Obtains forest (.node node))
      (hleaf : node.lastToken? = some leaf) : Obtains forest (.leaf leaf)
  | tokenParent {leaf : Leaf} (h : Obtains forest (.leaf leaf)) : Obtains forest (.node leaf.parent)

/-- **Navigation reaches nothing but nodes and tokens of the trees.** -/
theorem Obtains.reaches {part : Part} (h : forest.Obtains part) :
    ∃ tree ∈ forest.trees, (Node.top tree).Reaches part := by
  induction h with
  | @root tree htree => exact ⟨tree, htree, .refl _⟩
  | part _ hpart ih =>
    obtain ⟨tree, htree, hnode⟩ := ih
    exact ⟨tree, htree, Node.Within.reaches hnode (Node.reaches_of_mem_parts hpart)⟩
  | parent _ hparent ih =>
    obtain ⟨tree, htree, hnode⟩ := ih
    exact ⟨tree, htree, (Node.Within.of_parent? hnode hparent).1⟩
  | top _ ih =>
    obtain ⟨tree, htree, hnode⟩ := ih
    rw [Node.Within.root_eq hnode]
    exact ⟨tree, htree, .refl _⟩
  | nextSibling _ hsibling ih =>
    obtain ⟨tree, htree, hnode⟩ := ih
    obtain ⟨parent, hparent, -, hmem⟩ := Node.Within.of_nextSibling? hnode hsibling
    exact ⟨tree, htree, hparent.tail hmem⟩
  | firstToken _ hleaf ih =>
    obtain ⟨tree, htree, hnode⟩ := ih
    exact ⟨tree, htree, Node.Within.reaches hnode (Node.reaches_of_firstToken? hleaf)⟩
  | lastToken _ hleaf ih =>
    obtain ⟨tree, htree, hnode⟩ := ih
    exact ⟨tree, htree, Node.Within.reaches hnode (Node.reaches_of_lastToken? hleaf)⟩
  | tokenParent _ ih =>
    obtain ⟨tree, htree, node, hnode, hmem⟩ := ih
    rw [(Node.parent_eq_of_mem_parts hmem).1]
    exact ⟨tree, htree, hnode⟩

/-- Whatever stands in the trees can be got hold of, by going down. -/
theorem obtains_iff_reaches {part : Part} :
    forest.Obtains part ↔ ∃ tree ∈ forest.trees, (Node.top tree).Reaches part := by
  refine ⟨Obtains.reaches, ?_⟩
  rintro ⟨tree, htree, hpart⟩
  have hdown {node : Node} (hnode : (Node.top tree).Within node) : forest.Obtains (.node node) := by
    induction hnode with
    | refl => exact .root htree
    | tail _ hchild ih => exact .part ih (Node.mem_children.1 hchild)
  cases part with
  | node node => exact hdown hpart
  | leaf leaf =>
    obtain ⟨node, hnode, hmem⟩ := hpart
    exact .part (hdown hnode) hmem

end Forest

/-! ### Being the same -/

theorem Leaf.same_self (leaf : Leaf) : leaf.same leaf = true := by
  have hparent : (leaf.parent == leaf.parent) = true := leaf.parent.same_self
  simp [same, hparent]

instance : ReflBEq Leaf :=
  ⟨fun {leaf} => leaf.same_self⟩

namespace Node

theorem root_id_eq_of_same :
    {node other : Node} → node.same other = true → node.root.tree.id = other.root.tree.id
  | top _, top _, h => by simpa [same, root] using h
  | inner parent _ _ _, inner other _ _ _, h => by
    have hparent : parent.same other = true := (Bool.and_eq_true_iff.1 h).2
    have ih := root_id_eq_of_same hparent
    exact ih

theorem Reaches.root_id_eq_of_beq {tree other : Tree} {part part' : Part}
    (h : (top tree).Reaches part) (h' : (top other).Reaches part')
    (hsame : (part == part') = true) : tree.id = other.id := by
  have hroots {node node' : Node} (hnode : (top tree).Within node)
      (hnode' : (top other).Within node') (hsame : node.same node' = true) :
      tree.id = other.id := by
    have hid := root_id_eq_of_same hsame
    rwa [hnode.root_eq, hnode'.root_eq] at hid
  cases part with
  | node node =>
    cases part' with
    | node node' => exact hroots h h' hsame
    | leaf leaf' => cases hsame
  | leaf leaf =>
    cases part' with
    | node node' => cases hsame
    | leaf leaf' =>
      obtain ⟨node, hnode, hleaf⟩ := h
      obtain ⟨node', hnode', hleaf'⟩ := h'
      have hparents : leaf.parent.same leaf'.parent = true := (Bool.and_eq_true_iff.1 hsame).2
      rw [(parent_eq_of_mem_parts hleaf).1, (parent_eq_of_mem_parts hleaf').1] at hparents
      exact hroots hnode hnode' hparents

/-- **Different trees have nothing in common**: no node and no token of the one is one of the
other, whatever they share. -/
theorem Reaches.beq_eq_false {tree other : Tree} {part part' : Part} (h : (top tree).Reaches part)
    (h' : (top other).Reaches part') (hne : tree.id ≠ other.id) : (part == part') = false :=
  Bool.eq_false_iff.2 fun hsame => hne (h.root_id_eq_of_beq h' hsame)

end Node

/-- The root of a finished tree has the identity of the top of its operation. -/
theorem Builder.exists_of_finish {origin : Nat} {events : List Event} {root : Node}
    (h : ((new origin).offer events).finish = .ok root) :
    ∃ tree, root = .top tree ∧ tree.id = ⟨origin, []⟩ := by
  have hfinished : ∃ tree, root = .top tree ∧ tree.LaidOut ∧
      tree.MadeBy (fun _ => False) ⟨origin, []⟩ := laidOut_madeBy_of_finish h
  obtain ⟨tree, hroot, -, hmade⟩ := hfinished
  exact ⟨tree, hroot, hmade.kept_or_id_eq.resolve_left id⟩

namespace Forest

variable {forest : Forest} {node other : Node}

namespace Sound

/-- Nodes of a run with the same root and the same path are equal. -/
theorem eq_of_root_id_eq (h : forest.Sound) (hnode : forest.Holds node)
    (hother : forest.Holds other) (hroot : node.root.tree.id = other.root.tree.id)
    (hpath : node.path = other.path) : node = other := by
  obtain ⟨tree, htree, hrootnode, hwithin⟩ := hnode.exists_root_eq
  obtain ⟨tree', htree', hrootother, hwithin'⟩ := hother.exists_root_eq
  rw [hrootnode, hrootother] at hroot
  obtain rfl : tree = tree' := h.eq_of_id_eq (has_of_mem htree) (has_of_mem htree') hroot
  exact hwithin.eq_of_path_eq hwithin' hpath

/-- **Two nodes of a run are the same exactly if they are equal**, also if they stand in different
trees. -/
theorem beq_iff_eq (h : forest.Sound) (hnode : forest.Holds node) (hother : forest.Holds other) :
    (node == other) = true ↔ node = other := by
  constructor
  · intro hsame
    exact h.eq_of_root_id_eq hnode hother (Node.root_id_eq_of_same hsame)
      (Node.path_eq_of_same hsame)
  · rintro rfl
    exact node.same_self

/-- **Identity is place**: two nodes of a run are the same exactly if their roots are the same tree
and the ways down are the same. -/
theorem beq_iff_root_id_eq (h : forest.Sound) (hnode : forest.Holds node)
    (hother : forest.Holds other) :
    (node == other) = true ↔ node.root.tree.id = other.root.tree.id ∧ node.path = other.path := by
  constructor
  · intro hsame
    exact ⟨Node.root_id_eq_of_same hsame, Node.path_eq_of_same hsame⟩
  · rintro ⟨hroot, hpath⟩
    exact (h.beq_iff_eq hnode hother).2 (h.eq_of_root_id_eq hnode hother hroot hpath)

/-- Two tokens of a run are the same exactly if they stand at the same index below the same node. -/
theorem leaf_beq_iff (h : forest.Sound) {leaf leaf' : Leaf} (hnode : forest.Holds node)
    (hleaf : .leaf leaf ∈ node.parts) (hother : forest.Holds other)
    (hleaf' : .leaf leaf' ∈ other.parts) :
    (leaf == leaf') = true ↔ (leaf.parent == leaf'.parent) = true ∧ leaf.index = leaf'.index := by
  obtain ⟨hparent, hget⟩ := Node.parent_eq_of_mem_parts hleaf
  obtain ⟨hparent', hget'⟩ := Node.parent_eq_of_mem_parts hleaf'
  constructor
  · intro hsame
    obtain ⟨hfront, hparents⟩ := Bool.and_eq_true_iff.1 hsame
    exact ⟨hparents, eq_of_beq (Bool.and_eq_true_iff.1 hfront).1⟩
  · rintro ⟨hsame, hindex⟩
    rw [hparent, hparent', h.beq_iff_eq hnode hother] at hsame
    subst hsame
    rw [← hindex, hget] at hget'
    cases hget'
    exact leaf.same_self

/-- A transformation that replaces some tree by another one makes a tree with a root of its own. -/
theorem id_ne_of_changes (h : forest.Sound) {origin : Nat} {rule : Node → Answer} {root : Node}
    (hfresh : origin ∉ forest.origins) (hnode : forest.Holds node)
    (hok : (node.transform origin rule).result = .ok root)
    (hchanges : ∃ asked ∈ (node.transform origin rule).asked, asked.Changes) :
    ∃ new, root = .top new ∧ new.id ≠ node.tree.id := by
  rw [Node.result_transform] at hok
  obtain ⟨new, hrenewed, hroot⟩ := bind_eq_ok_iff.1 hok
  cases hroot
  rw [Node.asked_transform] at hchanges
  refine ⟨new, rfl, (Node.id_renewed_ne_iff (fun below hbelow horigin => ?_) hrenewed).2 hchanges⟩
  exact hfresh (horigin ▸ h.origin_mem (hnode.of_within hbelow).has)

end Sound

/-- **Identity is place.** Two nodes that a run can get hold of are the same exactly if their roots
are the same tree and the ways down are the same; two tokens exactly if they stand at the same index
below the same node. So trees that were built apart have nothing in common, nor have the old and the
new tree of a transformation that changes something, and a shared tree makes a different node at
each of its places. -/
theorem Reachable.same_iff_same_place (h : forest.Reachable) :
    (∀ node other, forest.Obtains (.node node) → forest.Obtains (.node other) →
      ((node == other) = true ↔
        node.root.tree.id = other.root.tree.id ∧ node.path = other.path)) ∧
    (∀ leaf other, forest.Obtains (.leaf leaf) → forest.Obtains (.leaf other) →
      ((leaf == other) = true ↔
        (leaf.parent == other.parent) = true ∧ leaf.index = other.index)) ∧
    (∀ (origin origin' : Nat) (events events' : List Event) (root root' : Node),
      origin ≠ origin' → ((Builder.new origin).offer events).finish = .ok root →
      ((Builder.new origin').offer events').finish = .ok root' →
      ∀ part part', root.Reaches part → root'.Reaches part' → (part == part') = false) ∧
    (∀ (tree : Tree) (origin : Nat) (rule : Node → Answer) (root : Node),
      tree ∈ forest.trees → origin ∉ forest.origins →
      ((Node.top tree).transform origin rule).result = .ok root →
      (∃ asked ∈ ((Node.top tree).transform origin rule).asked, asked.Changes) →
      ∀ part part', (Node.top tree).Reaches part → root.Reaches part' →
        (part == part') = false) ∧
    (∀ node other, forest.Obtains (.node node) → forest.Obtains (.node other) →
      node.tree.id = other.tree.id → node.path ≠ other.path → (node == other) = false) := by
  have hsound := h.sound
  refine ⟨fun node other hnode hother => ?_, fun leaf other hleaf hother => ?_, ?_, ?_, ?_⟩
  · exact hsound.beq_iff_root_id_eq hnode.reaches hother.reaches
  · obtain ⟨tree, htree, node, hnode, hmem⟩ := hleaf.reaches
    obtain ⟨tree', htree', node', hnode', hmem'⟩ := hother.reaches
    exact hsound.leaf_beq_iff ⟨tree, htree, hnode⟩ hmem ⟨tree', htree', hnode'⟩ hmem'
  · intro origin origin' events events' root root' hne hok hok' part part' hpart hpart'
    obtain ⟨tree, rfl, hid⟩ := Builder.exists_of_finish hok
    obtain ⟨tree', rfl, hid'⟩ := Builder.exists_of_finish hok'
    refine hpart.beq_eq_false hpart' ?_
    rw [hid, hid']
    exact fun heq => hne (congrArg Ident.origin heq)
  · intro tree origin rule root htree hfresh hok hchanges part part' hpart hpart'
    obtain ⟨new, rfl, hid⟩ := hsound.id_ne_of_changes hfresh ⟨tree, htree, .refl _⟩ hok hchanges
    exact hpart.beq_eq_false hpart' hid.symm
  · intro node other _ _ _ hpath
    exact Bool.eq_false_iff.2 fun hsame => hpath (Node.path_eq_of_same hsame)

/-- The variable `ü ` in place, below the root of a tree. -/
def variableAt (tree : Tree) (index offset : Nat) : Node :=
  .inner (.top tree) index offset variableTree

/-- The name of the variable `ü ` in place. -/
def nameAt (tree : Tree) (index offset : Nat) : Leaf :=
  ⟨variableAt tree index offset, 0, offset, ⟨0, [0, 0]⟩,
    (Token.identifier "ü").withTrailing ⟨[.spaces 1]⟩⟩

/-- The tree of a variable `x` that is built for itself. -/
def loneTree (origin : Nat) : Tree :=
  ⟨⟨origin, []⟩, .identifierVariable, 1, [.token 0 ⟨origin, [0]⟩ (.identifier "x")]⟩

/-- The two variables of `ü .ü ` are one tree and two nodes, and so are the first variables of
`ü .x` and `ü .ü `; and building `x` twice makes two roots. -/
theorem variables_of_sharing_differ :
    ((empty.add 0 dottedTree).add 1 sharingTree).Reachable ∧
    (variableAt sharingTree 0 0 == variableAt sharingTree 0 0) = true ∧
    (variableAt sharingTree 0 0).tree.id = (variableAt sharingTree 2 4).tree.id ∧
    (variableAt sharingTree 0 0 == variableAt sharingTree 2 4) = false ∧
    ¬ (nameAt sharingTree 0 0 == nameAt sharingTree 2 4) = true ∧
    (Part.node (.top (loneTree 0)) == .node (.top (loneTree 1))) = false ∧
    (Part.node (variableAt dottedTree 0 0) == .node (variableAt sharingTree 0 0)) = false := by
  have hmem : sharingTree ∈ ((empty.add 0 dottedTree).add 1 sharingTree).trees := .head _
  have hfirst : (Node.top sharingTree).Within (variableAt sharingTree 0 0) :=
    .of_mem_children (.head _)
  have hsecond : (Node.top sharingTree).Within (variableAt sharingTree 2 4) :=
    .of_mem_children (.tail _ (.head _))
  have hvariable {index offset : Nat}
      (h : (Node.top sharingTree).Within (variableAt sharingTree index offset)) :
      ((empty.add 0 dottedTree).add 1 sharingTree).Obtains
        (.node (variableAt sharingTree index offset)) :=
    obtains_iff_reaches.2 ⟨sharingTree, hmem, h⟩
  obtain ⟨hnodes, hleaves, hbuilt, -, hshared⟩ :=
    Reachable.same_iff_same_place reachable_sharing
  obtain ⟨-, -, -, htransformed, -⟩ := Reachable.same_iff_same_place reachable_dotted
  have hdiffer := hshared _ _ (hvariable hfirst) (hvariable hsecond) rfl (by decide)
  refine ⟨reachable_sharing, ?_, rfl, hdiffer, ?_, ?_, ?_⟩
  · exact (hnodes _ _ (hvariable hfirst) (hvariable hfirst)).2 ⟨rfl, rfl⟩
  · have hname {index offset : Nat}
        (h : (Node.top sharingTree).Within (variableAt sharingTree index offset)) :
        ((empty.add 0 dottedTree).add 1 sharingTree).Obtains
          (.leaf (nameAt sharingTree index offset)) :=
      .part (hvariable h) (.head _)
    rw [hleaves _ _ (hname hfirst) (hname hsecond)]
    intro hsame
    exact Bool.eq_false_iff.1 hdiffer hsame.1
  · have hok (origin : Nat) : ((Builder.new origin).offer (loneTree origin).events).finish =
        .ok (.top (loneTree origin)) := rfl
    exact hbuilt 0 1 _ _ _ _ (by decide) (hok 0) (hok 1) _ _ (.refl _) (.refl _)
  · have hok : ((Node.top dottedTree).transform 1 secondByFirst).result =
        .ok (.top sharingTree) := rfl
    have hfirst' : (Node.top dottedTree).Within (variableAt dottedTree 0 0) :=
      .of_mem_children (.head _)
    refine htransformed _ 1 secondByFirst _ (.head _) (by decide) hok ?_ _ _ hfirst' hfirst
    refine ⟨⟨_, .replace (variableAt dottedTree 0 0)⟩, .tail _ (.tail _ (.head _)), ?_⟩
    exact ⟨_, rfl, by decide⟩

end Forest

end LosslessTree
