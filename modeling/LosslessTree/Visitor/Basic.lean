import LosslessTree.Node.Fold
import LosslessTree.Trace
import LosslessTree.View.Element

/-!
# Visitors

A visitor acts on its own state at the nodes and tokens it is led to. It has one method for nodes
of any kind and one for tokens, and it may have a typed part with one method for each kind of
element. A node that is an element is led to the typed method of its kind if there is a typed part,
and to the general method otherwise, which the trace records.

No method goes further down by itself. A method is given what stands below its node, and goes down
by walking over all parts there, or by leading single elements to their typed methods.

## Main definitions

* `Visited`: the state of a visitor with the trace lines written.
* `Below`: the ways to go on below a node.
* `TypedVisitor`, `Visitor`: the methods.
* `Visitor.accept`, `Visitor.walk`, `Visitor.visit`, `Visitor.acceptElement`, `Visitor.acceptTyped`:
  the ways to start a visitor at a node.

## Main results

* `Visitor.walk_eq`: a walk leads the visitor to the parts below a node, one after the other.
* `Visitor.acceptAt_below`: a single element below a node is led to the method of its kind.
-/

namespace LosslessTree

universe u

variable {σ : Type u}

/-- The state of a visitor, with the trace lines written so far. -/
structure Visited (σ : Type u) where
  state : σ
  trace : Array TraceLine

namespace Visited

/-- Changes the state of the visitor. -/
def update (f : σ → σ) (visited : Visited σ) : Visited σ :=
  { visited with state := f visited.state }

/-- Writes a trace line. -/
def write (line : TraceLine) (visited : Visited σ) : Visited σ :=
  { visited with trace := visited.trace.push line }

end Visited

/-- What a visitor does at some node or token, and below it. -/
abbrev Visit (σ : Type u) := Visited σ → Visited σ

/-- The ways to go on below a node. -/
structure Below (σ : Type u) where
  /-- Visits all parts directly below the node in textual order. -/
  walk : Visit σ
  /-- Leads the element at a child index to the typed method of its kind; a token, or a node that is
  no element, is led nowhere. -/
  acceptAt : Nat → Visit σ

/-- The typed part of a visitor: a method for each kind of element. -/
structure TypedVisitor (σ : Type u) where
  visitLvalue : Lvalue → Below σ → Visit σ := fun _ _ => id
  visitFieldSig : FieldSig → Below σ → Visit σ := fun _ _ => id
  visitIdentifierVariable : IdentifierVariable → Below σ → Visit σ := fun _ _ => id

/-- The method of the kind of an element. -/
def TypedVisitor.method (visitor : TypedVisitor σ) : Element → Below σ → Visit σ
  | .lvalue view => visitor.visitLvalue view
  | .fieldSig view => visitor.visitFieldSig view
  | .identifierVariable view => visitor.visitIdentifierVariable view

/-- A visitor. By default it walks on below every node, and does nothing at tokens. -/
structure Visitor (σ : Type u) where
  visitNode : Node → Below σ → Visit σ := fun _ below => below.walk
  visitToken : Leaf → Visit σ := fun _ => id
  typed? : Option (TypedVisitor σ) := none

namespace Visitor

variable (visitor : Visitor σ)

/-- Leads an element to its typed method, or to the general one if there is no typed part. -/
def leadElement (element : Element) (below : Below σ) : Visit σ :=
  match visitor.typed? with
  | some typed => typed.method element below
  | none => fun visited =>
    visitor.visitNode element.raw below
      (visited.write (.visitedUntyped element.raw.kind element.raw.offset))

/-- Leads a node to the method that is meant for it. -/
def lead (node : Node) (below : Below σ) : Visit σ :=
  match Element.ofNode? node with
  | some element => visitor.leadElement element below
  | none => visitor.visitNode node below

/-- Visits a branch on a walk. -/
def visitBranch : Branch (Below σ) → Visit σ
  | .leaf leaf => visitor.visitToken leaf
  | .node node below => visitor.lead node (below ())

/-- Leads a branch to the typed method of its kind, if it is an element and there is one. -/
def acceptBranch : Branch (Below σ) → Visit σ
  | .leaf _ => id
  | .node node below =>
    match Element.ofNode? node, visitor.typed? with
    | some element, some typed => typed.method element (below ())
    | _, _ => id

/-- The ways to go on below a node with the given branches. -/
def belowStep (_ : Node) (branches : List (Branch (Below σ))) : Below σ where
  walk visited := branches.foldl (fun v branch => visitor.visitBranch branch v) visited
  acceptAt index :=
    match branches[index]? with
    | some branch => visitor.acceptBranch branch
    | none => id

/-- The ways to go on below a node. -/
def below (node : Node) : Below σ :=
  node.fold visitor.belowStep

/-- Leads the visitor to a node. -/
def accept (node : Node) : Visit σ :=
  visitor.lead node (visitor.below node)

/-- Leads the visitor to all parts directly below a node. -/
def walk (node : Node) : Visit σ :=
  (visitor.below node).walk

/-- Leads the visitor to a part. -/
def acceptPart : Part → Visit σ
  | .node node => visitor.accept node
  | .leaf leaf => visitor.visitToken leaf

theorem walk_eq (node : Node) (visited : Visited σ) :
    visitor.walk node visited =
      node.parts.foldl (fun v part => visitor.acceptPart part v) visited := by
  unfold walk below
  rw [Node.fold_eq]
  simp only [belowStep, List.foldl_map]
  congr 1
  funext v part
  cases part <;> rfl

theorem acceptAt_below {node child : Node} {index : Nat} {element : Element}
    {typed : TypedVisitor σ} (hchild : node.parts[index]? = some (.node child))
    (helement : Element.ofNode? child = some element) (htyped : visitor.typed? = some typed) :
    (visitor.below node).acceptAt index = typed.method element (visitor.below child) := by
  unfold below
  rw [Node.fold_eq]
  simp [belowStep, hchild, Part.branch, acceptBranch, helement, htyped]

/-- Calls the general method for a node, whatever its kind. -/
def visit (node : Node) : Visit σ :=
  visitor.visitNode node (visitor.below node)

/-- Leads the visitor to an element. -/
def acceptElement (element : Element) : Visit σ :=
  visitor.leadElement element (visitor.below element.raw)

/-- Leads a typed part of the visitor to an element. -/
def acceptTyped (typed : TypedVisitor σ) (element : Element) : Visit σ :=
  typed.method element (visitor.below element.raw)

end Visitor

end LosslessTree
