/-!
# Kinds of nodes

## Main definitions

* `NodeKind`, with its name as it appears in messages, `NodeKind.name`.
-/

namespace LosslessTree

/-- The kind of a node. -/
inductive NodeKind where
  | file
  | assignStatement
  /-- An assignable expression: `r0`, `r0.<A: int f>`, `<A: int f>` or `r1[i2]`. -/
  | lvalue
  /-- The signature of a field: `<A: int f>`. -/
  | fieldSig
  /-- A reference to a local variable: `r0`, `%this`. -/
  | identifierVariable
  deriving DecidableEq, Repr

/-- The name of a kind in messages and trace lines. -/
def NodeKind.name : NodeKind → String
  | file => "File"
  | assignStatement => "AssignStatement"
  | lvalue => "Lvalue"
  | fieldSig => "FieldSig"
  | identifierVariable => "IdentifierVariable"

end LosslessTree
