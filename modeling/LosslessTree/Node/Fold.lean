import LosslessTree.Node.Basic

/-!
# Folding over the nodes below a node

Every traversal of a subtree is a fold: the value of a node is made from the node and, for each
part directly below it, the part with its value. Folding is the only recursion on trees in place.

A tree may share a subtree many times over and so have far more nodes than were ever built. A value
is therefore computed only when it is asked for, and a traversal costs no more than the nodes it
looks at.

## Main definitions

* `Branch`: a part below a node, a node with its value on demand.
* `Node.fold`: the value of a node.
* `Node.firstToken?`, `Node.lastToken?`: the first and the last token of a subtree.
* `Node.listing`: all parts of a subtree with their depth.

## Main results

* `Node.fold_eq`: the value of a node in terms of the values of the parts below it.
* `Node.firstToken?_eq`, `Node.lastToken?_eq`, `Node.listingFrom_eq`: the same for the three
  traversals defined here.
-/

namespace LosslessTree

universe u

variable {α : Type u}

/-- A part directly below a node in the course of a fold; the value of a node is given on demand. -/
inductive Branch (α : Type u) where
  | leaf (leaf : Leaf)
  | node (node : Node) (value : Unit → α)

/-- The branch of a part, given the values of nodes. -/
def Part.branch (value : Node → α) : Part → Branch α
  | .node n => .node n fun _ => value n
  | .leaf l => .leaf l

mutual

/-- The value of a tree that stands at the node `here`. -/
def Tree.foldAt (f : Node → List (Branch α) → α) (here : Node) : Tree → α
  | ⟨_, _, _, children⟩ => f here (foldChildren f here 0 children)

/-- The branches of children of the node `here`, the first of which has the given index. -/
def foldChildren (f : Node → List (Branch α) → α) (here : Node) (index : Nat) :
    List Child → List (Branch α)
  | [] => []
  | .token offset id token :: rest =>
    .leaf ⟨here, index, here.offset + offset, id, token⟩ :: foldChildren f here (index + 1) rest
  | .node offset tree :: rest =>
    .node (.inner here index (here.offset + offset) tree)
        (fun _ => tree.foldAt f (.inner here index (here.offset + offset) tree)) ::
      foldChildren f here (index + 1) rest

end

namespace Node

/-- The value of a node, where `f` makes the value of a node from the branches below it. -/
def fold (f : Node → List (Branch α) → α) (node : Node) : α :=
  node.tree.foldAt f node

theorem foldChildren_eq (f : Node → List (Branch α) → α) (here : Node) :
    (index : Nat) → (children : List Child) →
      foldChildren f here index children =
        (children.zipIdx index).map fun (child, i) => (here.part i child).branch (fold f)
  | _, [] => by simp [foldChildren]
  | index, .token offset id token :: rest => by
    simp [foldChildren, foldChildren_eq f here (index + 1) rest, part, Part.branch]
  | index, .node offset tree :: rest => by
    simp [foldChildren, foldChildren_eq f here (index + 1) rest, part, Part.branch, fold, Node.tree]

/-- The value of a node is made from its parts, each node with its own value. -/
theorem fold_eq (f : Node → List (Branch α) → α) (node : Node) :
    node.fold f = f node (node.parts.map (Part.branch (fold f))) := by
  unfold fold parts
  rcases h : node.tree with ⟨id, kind, byteLen, children⟩
  simp only [Tree.foldAt, foldChildren_eq, List.map_map]
  rfl

/-- The token that a branch stands for: a leaf itself, and the token found below a node. -/
def tokenOf? : Branch (Option Leaf) → Option Leaf
  | .leaf l => some l
  | .node _ found => found ()

/-- The first token of a subtree: that of the first part that has one. -/
def firstToken? (node : Node) : Option Leaf :=
  node.fold fun _ branches => branches.findSome? tokenOf?

theorem firstToken?_eq (node : Node) :
    node.firstToken? = node.parts.findSome? (Part.elim firstToken? some) := by
  unfold firstToken?
  rw [fold_eq, List.findSome?_map]
  congr 1
  funext part
  cases part <;> rfl

/-- The last token of a subtree: that of the last part that has one. -/
def lastToken? (node : Node) : Option Leaf :=
  node.fold fun _ branches => (branches.filterMap tokenOf?).getLast?

theorem lastToken?_eq (node : Node) :
    node.lastToken? = (node.parts.filterMap (Part.elim lastToken? some)).getLast? := by
  unfold lastToken?
  rw [fold_eq, List.filterMap_map]
  congr 2
  funext part
  cases part <;> rfl

/-- The listing of a branch at a depth: a leaf itself, and the listing found below a node. -/
def listingOf (depth : Nat) : Branch (Nat → List (Nat × Part)) → List (Nat × Part)
  | .leaf l => [(depth, .leaf l)]
  | .node _ listed => listed () depth

/-- All parts of a subtree in textual order, the node itself first, each with its depth, where the
node itself is at `depth`. -/
def listingFrom (node : Node) : Nat → List (Nat × Part) :=
  node.fold fun n branches depth => (depth, Part.node n) :: branches.flatMap (listingOf (depth + 1))

theorem listingFrom_eq (node : Node) (depth : Nat) :
    node.listingFrom depth = (depth, .node node) :: node.parts.flatMap
      (Part.elim (fun child => child.listingFrom (depth + 1)) fun l => [(depth + 1, .leaf l)]) := by
  unfold listingFrom
  rw [fold_eq, List.flatMap_map]
  congr 2
  funext part
  cases part <;> rfl

/-- All parts of a subtree in textual order, the node itself first, each with its depth below it. -/
def listing (node : Node) : List (Nat × Part) :=
  node.listingFrom 0

end Node

end LosslessTree
