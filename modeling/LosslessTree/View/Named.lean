import LosslessTree.Transform
import LosslessTree.View.Element

/-!
# Named elements

Field signatures and variables are named by one of the identifiers directly below them. Renaming an
element makes a new tree in which that identifier has another text; its trivia and everything else
stay as they are, and the old tree is not touched.

## Main definitions

* `Named`, `Named.ofNode?`: an element with a name, and that of a node.
* `Named.nameToken?`, `Named.name?`: the identifier that names an element, and its text.
* `Named.rename`: the tree in which an element has another name.
-/

namespace LosslessTree

/-- An element that may have a name. -/
inductive Named where
  | fieldSig (view : FieldSig)
  | identifierVariable (view : IdentifierVariable)

/-- A copy of the tree of a node, made by operation number `origin`, with another token in place of
the child at `index`. -/
def Node.withToken (node : Node) (origin : Nat) (index : Nat) (token : Token) :
    Except Overflow Tree := do
  let id : Ident := ⟨origin, node.path⟩
  let copy ← node.tree.toDraft.replaceChild index (.token 0 (id.child index) token)
  return copy.toTree id

namespace Named

/-- The named element of a node; lvalues, statements and files have no name. -/
def ofNode? (node : Node) : Option Named :=
  match Element.ofNode? node with
  | some (.fieldSig view) => some (.fieldSig view)
  | some (.identifierVariable view) => some (.identifierVariable view)
  | _ => none

/-- The node of a named element. -/
def raw : Named → Node
  | fieldSig view => view.raw
  | identifierVariable view => view.raw

/-- The identifier that carries the name: that of the field, or that of the variable. -/
def nameToken? : Named → Option Leaf
  | fieldSig view => FieldSig.fieldName? view
  | identifierVariable view => IdentifierVariable.identifier? view

/-- The name of an element. -/
def name? (named : Named) : Option String :=
  named.nameToken?.map Leaf.text

/-- The root of the tree in which an element has the name `newName`, made by operation number
`origin`; none if the element has no name to begin with. -/
def rename (origin : Nat) (newName : String) (named : Named) : Option (Outcome Node) :=
  named.nameToken?.map fun leaf => do
    let renamed ← .of (named.raw.withToken origin leaf.index (leaf.token.withText newName))
    named.raw.root.transform origin fun node =>
      if node == named.raw then .replace (.top renamed) else .keep

end Named

end LosslessTree
