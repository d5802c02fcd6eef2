import LosslessTree.Tree.Basic

/-!
# Nodes in place

A `Tree` does not know where it stands, because it may be shared. A `Node` is a tree seen at a
position: at the top, or at an index below another node, with its absolute offset. A `Leaf` is a
token seen at a position. Positions are made while going down, and going up reads them off.

## Main definitions

* `Node`, `Leaf`, `Part`: a node, a token, and either of them, in place.
* `Node.parts`, `Node.children`, `Node.tokens`: what stands directly below a node.
* `Node.parent?`, `Node.root`, `Node.nextSibling?`, `Node.firstChild?`, `Node.nthChild?`: how to
  get from one node to another.
* `Node.path`: the child indices on the way down from the root.

## Main results

* `Node.getElem?_parts`: the part at an index is the child of the tree at that index, in place.
* `Node.induction`: a statement that passes from all children of a node to the node holds always.
-/

namespace LosslessTree

universe u

/-- A node in place. -/
inductive Node where
  /-- The root of a tree. -/
  | top (tree : Tree)
  /-- The child of `parent` at `index`, counting its nodes and tokens, at an absolute offset. -/
  | inner (parent : Node) (index : Nat) (offset : Nat) (tree : Tree)

/-- A token in place: the child of `parent` at `index`, at an absolute offset, where its leading
trivia starts. -/
structure Leaf where
  parent : Node
  index : Nat
  offset : Nat
  id : Ident
  token : Token

/-- A node or a token in place. -/
inductive Part where
  | node (node : Node)
  | leaf (leaf : Leaf)

namespace Part

/-- The node, if the part is one. -/
def node? : Part → Option Node
  | node n => some n
  | leaf _ => none

/-- The token, if the part is one. -/
def leaf? : Part → Option Leaf
  | node _ => none
  | leaf l => some l

/-- What one function says about a node, or another about a token. -/
def elim {α : Type u} (onNode : Node → α) (onLeaf : Leaf → α) : Part → α
  | node n => onNode n
  | leaf l => onLeaf l

end Part

namespace Leaf

/-- The kind of the token. -/
def kind (leaf : Leaf) : TokenKind :=
  leaf.token.kind

/-- The text of the token without trivia. -/
def text (leaf : Leaf) : String :=
  leaf.token.text

/-- The text of the token with trivia. -/
def fullText (leaf : Leaf) : String :=
  leaf.token.fullText

/-- The length of the token with trivia. -/
def byteLen (leaf : Leaf) : Except Overflow Nat :=
  leaf.token.byteLen

end Leaf

namespace Node

/-- The tree below a node. -/
def tree : Node → Tree
  | top tree => tree
  | inner _ _ _ tree => tree

/-- The absolute offset of a node; a root starts at zero. -/
def offset : Node → Nat
  | top _ => 0
  | inner _ _ offset _ => offset

/-- The position of a node among the nodes and tokens of its parent, and zero for a root. -/
def index : Node → Nat
  | top _ => 0
  | inner _ index _ _ => index

/-- The node directly above. -/
def parent? : Node → Option Node
  | top _ => none
  | inner parent _ _ _ => some parent

/-- The node at the top of the tree in which a node stands. -/
def root : Node → Node
  | top tree => top tree
  | inner parent _ _ _ => parent.root

/-- The indices on the way down from the root to a node. -/
def path : Node → List Nat
  | top _ => []
  | inner parent index _ _ => parent.path ++ [index]

/-- The kind of a node. -/
def kind (node : Node) : NodeKind :=
  node.tree.kind

/-- The length of the text of a node. -/
def byteLen (node : Node) : Nat :=
  node.tree.byteLen

/-- The source text of a node. -/
def text (node : Node) : String :=
  node.tree.text

/-- The child at `index`, seen in place. -/
def part (node : Node) (index : Nat) : Child → Part
  | .token offset id token => .leaf ⟨node, index, node.offset + offset, id, token⟩
  | .node offset tree => .node (inner node index (node.offset + offset) tree)

/-- The nodes and tokens directly below a node, in textual order. -/
def parts (node : Node) : List Part :=
  node.tree.children.zipIdx.map fun (child, index) => node.part index child

/-- The nodes directly below a node. -/
def children (node : Node) : List Node :=
  node.parts.filterMap Part.node?

/-- The tokens directly below a node. -/
def tokens (node : Node) : List Leaf :=
  node.parts.filterMap Part.leaf?

/-- The first node directly below a node. -/
def firstChild? (node : Node) : Option Node :=
  node.children.head?

/-- The node number `n`, from zero, directly below a node. -/
def nthChild? (node : Node) (n : Nat) : Option Node :=
  node.children[n]?

/-- The next node below the same parent; tokens between the two are skipped. -/
def nextSibling? (node : Node) : Option Node := do
  let parent ← node.parent?
  (parent.parts.drop (node.index + 1)).findSome? Part.node?

/-! ### The parts below a node -/

@[simp] theorem tree_inner (parent : Node) (index offset : Nat) (tree : Tree) :
    (inner parent index offset tree).tree = tree :=
  rfl

@[simp] theorem length_parts (node : Node) : node.parts.length = node.tree.children.length := by
  simp [parts]

theorem getElem?_parts (node : Node) (index : Nat) :
    node.parts[index]? = node.tree.children[index]?.map (node.part index) := by
  cases h : node.tree.children[index]? <;> simp [parts, h]

theorem mem_children {node child : Node} : child ∈ node.children ↔ .node child ∈ node.parts := by
  constructor
  · intro h
    obtain ⟨part, hpart, hchild⟩ := List.mem_filterMap.1 h
    cases part <;> simp_all [Part.node?]
  · intro h
    exact List.mem_filterMap.2 ⟨_, h, rfl⟩

/-- A node below another one is a subtree of its tree, seen in place. -/
theorem exists_of_getElem?_parts {node child : Node} {index : Nat}
    (h : node.parts[index]? = some (.node child)) :
    ∃ offset tree, node.tree.children[index]? = some (.node offset tree) ∧
      child = .inner node index (node.offset + offset) tree := by
  rw [getElem?_parts] at h
  obtain ⟨c, hc, hpart⟩ := Option.map_eq_some_iff.1 h
  cases c with
  | token => simp [part] at hpart
  | node offset tree =>
    refine ⟨offset, tree, hc, ?_⟩
    simpa [part] using hpart.symm

theorem exists_of_mem_children {node child : Node} (h : child ∈ node.children) :
    ∃ index : Nat, node.parts[index]? = some (.node child) :=
  List.mem_iff_getElem?.1 (mem_children.1 h)

theorem exists_of_nextSibling? {node sibling : Node} (h : node.nextSibling? = some sibling) :
    ∃ (parent : Node) (index : Nat), node.parent? = some parent ∧ node.index < index ∧
      parent.parts[index]? = some (.node sibling) := by
  obtain ⟨parent, hparent, hfind⟩ := Option.bind_eq_some_iff.1 h
  obtain ⟨p, hmem, hp⟩ := List.exists_of_findSome?_eq_some hfind
  obtain ⟨k, hk⟩ := List.mem_iff_getElem?.1 hmem
  rw [List.getElem?_drop] at hk
  refine ⟨parent, node.index + 1 + k, hparent, by omega, ?_⟩
  cases p <;> simp_all [Part.node?]

theorem sizeOf_tree_lt_of_mem_children {node child : Node} (h : child ∈ node.children) :
    sizeOf child.tree < sizeOf node.tree := by
  obtain ⟨index, hindex⟩ := exists_of_mem_children h
  obtain ⟨offset, tree, hget, rfl⟩ := exists_of_getElem?_parts hindex
  have hlt := List.sizeOf_lt_of_mem (List.mem_of_getElem? hget)
  rcases htree : node.tree with ⟨id, kind, byteLen, children⟩
  simp_all [Node.tree]
  omega

/-- To prove a statement of all nodes, prove it of a node whose children satisfy it. -/
theorem induction {P : Node → Prop} (step : ∀ node, (∀ child ∈ node.children, P child) → P node)
    (node : Node) : P node :=
  step node fun child _ => induction step child
termination_by sizeOf node.tree
decreasing_by exact sizeOf_tree_lt_of_mem_children ‹_›

end Node

end LosslessTree
