import Mathlib.Data.List.Basic
import Mathlib.Logic.Relation
import LosslessTree.Node.Fold
import LosslessTree.Node.Identity
import LosslessTree.Proofs.Layout

/-!
# Nodes of a subtree

Every node in place is reached from the root by going down from node to child. The way down is
recorded in the node, as its path, and the path tells the nodes of one tree apart: a node is where
it stands. The test for being the same node, which compares offsets, indices and identities all the
way up, comes down to this.

## Main definitions

* `Node.Within start node`: the node is `start` or stands below it.
* `Node.Reaches start part`: the part is a node of the subtree of `start`, or a token of it.
* `Node.partsFrom`: the parts of a node from some index on.
* `Node.allParts`: all parts of a subtree in textual order.

## Main results

* `Node.Within.eq_of_path_eq`: two nodes of one tree with the same path are equal.
* `Node.Within.beq_iff_eq`: two nodes of one tree are the same exactly if they are equal.
* `Node.Within.laidOut`: below a tree that is laid out, all trees are.
-/

namespace LosslessTree

namespace Node

/-- The node is `start` itself or stands below it, at any depth. -/
def Within : Node → Node → Prop :=
  Relation.ReflTransGen fun parent child => child ∈ parent.children

@[simp] theorem tree_top (tree : Tree) : (top tree).tree = tree :=
  rfl

@[simp] theorem path_top (tree : Tree) : (top tree).path = [] :=
  rfl

@[simp] theorem offset_top (tree : Tree) : (top tree).offset = 0 :=
  rfl

@[simp] theorem path_inner (parent : Node) (index offset : Nat) (tree : Tree) :
    (inner parent index offset tree).path = parent.path ++ [index] :=
  rfl

@[simp] theorem offset_inner (parent : Node) (index offset : Nat) (tree : Tree) :
    (inner parent index offset tree).offset = offset :=
  rfl

/-- The nodes directly below a node are the trees among its children, in place. -/
theorem mem_children_iff {node child : Node} :
    child ∈ node.children ↔ ∃ index offset tree,
      node.tree.children[index]? = some (.node offset tree) ∧
        child = .inner node index (node.offset + offset) tree := by
  constructor
  · intro h
    obtain ⟨index, hindex⟩ := exists_of_mem_children h
    exact ⟨index, exists_of_getElem?_parts hindex⟩
  · rintro ⟨index, offset, tree, hget, rfl⟩
    refine mem_children.2 (List.mem_of_getElem? (i := index) ?_)
    rw [getElem?_parts, hget]
    rfl

theorem path_eq_of_mem_children {node child : Node} (h : child ∈ node.children) :
    child.path = node.path ++ [child.index] := by
  obtain ⟨index, offset, tree, -, rfl⟩ := mem_children_iff.1 h
  rfl

theorem getElem?_parts_of_mem_children {node child : Node} (h : child ∈ node.children) :
    node.parts[child.index]? = some (.node child) := by
  obtain ⟨index, hget⟩ := exists_of_mem_children h
  obtain ⟨_, _, -, rfl⟩ := exists_of_getElem?_parts hget
  exact hget

/-- A part stands between the parts before it and those behind it. -/
theorem parts_eq_append {node : Node} {index : Nat} {part : Part}
    (h : node.parts[index]? = some part) :
    node.parts = node.parts.take index ++ part :: node.parts.drop (index + 1) := by
  obtain ⟨hlt, hpart⟩ := List.getElem?_eq_some_iff.1 h
  rw [← hpart, ← List.drop_eq_getElem_cons hlt, List.take_append_drop]

/-- The nodes before and behind an index have other indices. -/
theorem index_ne_of_mem {node other : Node} {index : Nat}
    (h : .node other ∈ node.parts.take index ++ node.parts.drop (index + 1)) :
    other ∈ node.children ∧ other.index ≠ index := by
  obtain ⟨place, hne, hplace⟩ :
      ∃ place, place ≠ index ∧ node.parts[place]? = some (.node other) := by
    rcases List.mem_append.1 h with hmem | hmem
    · obtain ⟨place, hplace⟩ := List.mem_iff_getElem?.1 hmem
      rw [List.getElem?_take] at hplace
      split_ifs at hplace with hless
      exact ⟨place, by omega, hplace⟩
    · obtain ⟨place, hplace⟩ := List.mem_iff_getElem?.1 hmem
      rw [List.getElem?_drop] at hplace
      exact ⟨index + 1 + place, by omega, hplace⟩
  obtain ⟨_, _, -, rfl⟩ := exists_of_getElem?_parts hplace
  exact ⟨mem_children.2 (List.mem_of_getElem? hplace), hne⟩

/-- Children of a node in place, the first of which stands at the given index. -/
def partsFrom (node : Node) (index : Nat) (children : List Child) : List Part :=
  (children.zipIdx index).map fun entry => node.part entry.2 entry.1

@[simp] theorem partsFrom_cons (node : Node) (index : Nat) (child : Child) (rest : List Child) :
    node.partsFrom index (child :: rest) =
      node.part index child :: node.partsFrom (index + 1) rest :=
  rfl

theorem parts_eq_partsFrom (node : Node) : node.parts = node.partsFrom 0 node.tree.children :=
  rfl

namespace Within

variable {start node child : Node}

theorem refl (start : Node) : start.Within start :=
  Relation.ReflTransGen.refl

theorem of_mem_children (h : child ∈ node.children) : node.Within child :=
  Relation.ReflTransGen.single h

theorem trans {last : Node} (h : start.Within node) (hlast : node.Within last) :
    start.Within last :=
  Relation.ReflTransGen.trans h hlast

theorem tail (h : start.Within node) (hchild : child ∈ node.children) : start.Within child :=
  Relation.ReflTransGen.tail h hchild

theorem head (hchild : child ∈ start.children) (h : child.Within node) : start.Within node :=
  Relation.ReflTransGen.head hchild h

/-- All nodes of a subtree have the same root. -/
theorem root_eq (h : start.Within node) : node.root = start.root := by
  induction h with
  | refl => rfl
  | tail _ hchild ih =>
    obtain ⟨index, offset, tree, -, rfl⟩ := mem_children_iff.1 hchild
    exact ih

/-- The path of a node goes on from the path of any node above it. -/
theorem exists_path_eq (h : start.Within node) : ∃ place, node.path = start.path ++ place := by
  induction h with
  | refl => exact ⟨[], by simp⟩
  | tail _ hchild ih =>
    obtain ⟨place, hplace⟩ := ih
    obtain ⟨index, offset, tree, -, rfl⟩ := mem_children_iff.1 hchild
    exact ⟨place ++ [index], by simp [hplace]⟩

/-- A node below a child of a node is not that node. -/
theorem ne_of_mem_children (hchild : child ∈ start.children) (h : child.Within node) :
    start ≠ node := by
  obtain ⟨place, hplace⟩ := h.exists_path_eq
  rw [path_eq_of_mem_children hchild] at hplace
  intro heq
  simp [← heq] at hplace

/-- Below different children of a node stand different nodes. -/
theorem ne_of_index_ne {other below : Node} (hchild : child ∈ start.children)
    (hother : other ∈ start.children) (hindex : other.index ≠ child.index)
    (h : child.Within node) (hbelow : other.Within below) : below ≠ node := by
  obtain ⟨place, hplace⟩ := h.exists_path_eq
  obtain ⟨place', hplace'⟩ := hbelow.exists_path_eq
  rw [path_eq_of_mem_children hchild] at hplace
  rw [path_eq_of_mem_children hother] at hplace'
  intro heq
  rw [heq, hplace] at hplace'
  simp [hindex.symm] at hplace'

/-- Below a tree that is laid out, all trees are. -/
theorem laidOut (h : start.Within node) (hstart : start.tree.LaidOut) : node.tree.LaidOut := by
  induction h with
  | refl => exact hstart
  | tail _ hchild ih =>
    obtain ⟨index, offset, tree, hget, rfl⟩ := mem_children_iff.1 hchild
    exact ih.of_mem (List.mem_of_getElem? hget)

/-- A node of a tree is its root, or a child of another node of it. -/
theorem eq_top_or_inner {tree : Tree} (h : (top tree).Within node) :
    node = top tree ∨ ∃ parent index offset sub,
      (top tree).Within parent ∧ parent.tree.children[index]? = some (.node offset sub) ∧
        node = inner parent index (parent.offset + offset) sub := by
  rcases Relation.ReflTransGen.cases_tail h with rfl | ⟨parent, hparent, hchild⟩
  · exact .inl rfl
  · obtain ⟨index, offset, sub, hget, rfl⟩ := mem_children_iff.1 hchild
    exact .inr ⟨parent, index, offset, sub, hparent, hget, rfl⟩

/-- **A node is where it stands**: two nodes of one tree with the same path are equal. -/
theorem eq_of_path_eq {tree : Tree} {other : Node} (h : (top tree).Within node)
    (hother : (top tree).Within other) (hpath : node.path = other.path) : node = other := by
  induction h generalizing other with
  | refl =>
    rcases hother.eq_top_or_inner with rfl | ⟨parent, index, offset, sub, -, -, rfl⟩
    · rfl
    · simp [path] at hpath
  | tail hparent hchild ih =>
    obtain ⟨index, offset, sub, hget, rfl⟩ := mem_children_iff.1 hchild
    rcases hother.eq_top_or_inner with rfl | ⟨parent', index', offset', sub', hparent', hget', rfl⟩
    · simp [path] at hpath
    · obtain ⟨hup, hindex⟩ := List.append_inj' hpath rfl
      obtain rfl := ih hparent' hup
      obtain rfl : index = index' := by simpa using hindex
      cases hget.symm.trans hget'
      rfl

end Within

/-- The nodes and tokens that can be reached from a node by going down. -/
def Reaches (start : Node) : Part → Prop
  | .node node => start.Within node
  | .leaf leaf => ∃ node, start.Within node ∧ .leaf leaf ∈ node.parts

/-! ### Being the same node -/

theorem same_self : (node : Node) → node.same node = true
  | top _ => by simp [same]
  | inner parent _ _ _ => by simp [same, same_self parent]

theorem path_eq_of_same : {node other : Node} → node.same other = true → node.path = other.path
  | top _, top _, _ => rfl
  | inner parent index _ _, inner parent' index' _ _, h => by
    simp only [same, Bool.and_eq_true, beq_iff_eq] at h
    obtain ⟨⟨⟨-, rfl⟩, -⟩, hparent⟩ := h
    simp only [path, path_eq_of_same hparent]

/-- **Two nodes of one tree are the same exactly if they are equal**, although the test looks at
offsets, indices and identities only. -/
theorem Within.beq_iff_eq {tree : Tree} {node other : Node} (h : (top tree).Within node)
    (hother : (top tree).Within other) : (node == other) = true ↔ node = other := by
  constructor
  · intro hsame
    exact h.eq_of_path_eq hother (path_eq_of_same hsame)
  · rintro rfl
    exact node.same_self

/-! ### All parts of a subtree -/

/-- All parts of a subtree in textual order, the node itself first. -/
def allParts (node : Node) : List Part :=
  node.listing.map Prod.snd

theorem map_snd_listingFrom (node : Node) :
    ∀ depth other,
      (node.listingFrom depth).map Prod.snd = (node.listingFrom other).map Prod.snd := by
  induction node using Node.induction with
  | step node ih =>
    intro depth other
    rw [listingFrom_eq, listingFrom_eq]
    simp only [List.map_cons, List.map_flatMap]
    congr 1
    refine List.flatMap_congr fun part hpart => ?_
    cases part with
    | node child => exact ih child (mem_children.2 hpart) _ _
    | leaf leaf => rfl

/-- A subtree consists of its top and of the parts of all subtrees below, in textual order. -/
theorem allParts_eq (node : Node) :
    node.allParts =
      .node node :: node.parts.flatMap (Part.elim allParts fun leaf => [.leaf leaf]) := by
  unfold allParts listing
  rw [listingFrom_eq]
  simp only [List.map_cons, List.map_flatMap]
  congr 1
  refine List.flatMap_congr fun part _ => ?_
  cases part with
  | node child => exact child.map_snd_listingFrom _ _
  | leaf leaf => rfl

/-- What is said of all parts of a subtree is said of its top and then of all subtrees below. -/
theorem map_allParts {α : Type} (f : Part → α) (node : Node) :
    node.allParts.map f = f (.node node) :: node.parts.flatMap
      (Part.elim (fun child => child.allParts.map f) fun leaf => [f (.leaf leaf)]) := by
  rw [allParts_eq, List.map_cons, List.map_flatMap]
  congr 1
  refine List.flatMap_congr fun part _ => ?_
  cases part <;> rfl

end Node

end LosslessTree
