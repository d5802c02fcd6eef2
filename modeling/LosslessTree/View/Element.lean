import LosslessTree.View.Basic

/-!
# The typed elements

Three kinds of nodes have a typed view with accessors of their own.

* An *lvalue* is the left-hand side of an assignment: a variable `r0`, a field of an object
  `r0.<A: int f>`, a static field `<A: int f>`, or an element of an array `r1[i2]`.
* A *field signature* `<A: int f>` holds a declaring class, a type and a name, each an identifier.
* A *variable* is a reference to a local variable.

## Main definitions

* `Lvalue`, `FieldSig`, `IdentifierVariable`, with their accessors.
* `Element`, `Element.ofNode?`: any of the three, and the element of a node.
-/

namespace LosslessTree

/-- A node of kind lvalue. -/
abbrev Lvalue := View .lvalue

/-- A node of kind field signature. -/
abbrev FieldSig := View .fieldSig

/-- A node of kind variable. -/
abbrev IdentifierVariable := View .identifierVariable

/-- The identifiers directly below a node. -/
def Node.identifiers (node : Node) : List Leaf :=
  node.tokens.filter fun leaf => leaf.kind = .identifier

namespace Lvalue

/-- The first field signature directly below an lvalue. -/
def fieldSig? (lvalue : Lvalue) : Option FieldSig :=
  lvalue.raw.children.findSome? (View.ofNode? .fieldSig)

/-- The variables directly below an lvalue, in textual order. -/
def identifierVariables (lvalue : Lvalue) : List IdentifierVariable :=
  lvalue.raw.children.filterMap (View.ofNode? .identifierVariable)

/-- Whether an lvalue accesses a field. -/
def isFieldAccess (lvalue : Lvalue) : Bool :=
  lvalue.fieldSig?.isSome

end Lvalue

namespace FieldSig

/-- The class that declares the field: the first identifier. -/
def className? (sig : FieldSig) : Option Leaf :=
  sig.raw.identifiers[0]?

/-- The type of the field: the second identifier. -/
def fieldType? (sig : FieldSig) : Option Leaf :=
  sig.raw.identifiers[1]?

/-- The name of the field: the third identifier. -/
def fieldName? (sig : FieldSig) : Option Leaf :=
  sig.raw.identifiers[2]?

end FieldSig

namespace IdentifierVariable

/-- The identifier of a variable: the first one. -/
def identifier? (var : IdentifierVariable) : Option Leaf :=
  var.raw.identifiers.head?

end IdentifierVariable

/-- A node that has a typed view. -/
inductive Element where
  | lvalue (view : Lvalue)
  | fieldSig (view : FieldSig)
  | identifierVariable (view : IdentifierVariable)

namespace Element

/-- The element of a node; files and statements have none. -/
def ofNode? (node : Node) : Option Element :=
  match h : node.kind with
  | .lvalue => some (.lvalue ⟨node, h⟩)
  | .fieldSig => some (.fieldSig ⟨node, h⟩)
  | .identifierVariable => some (.identifierVariable ⟨node, h⟩)
  | .file | .assignStatement => none

/-- The node of an element. -/
def raw : Element → Node
  | lvalue view => view.raw
  | fieldSig view => view.raw
  | identifierVariable view => view.raw

/-- Whether two elements are one element. -/
def same : Element → Element → Bool
  | lvalue a, lvalue b => a == b
  | fieldSig a, fieldSig b => a == b
  | identifierVariable a, identifierVariable b => a == b
  | _, _ => false

instance : BEq Element := ⟨same⟩

end Element

end LosslessTree
