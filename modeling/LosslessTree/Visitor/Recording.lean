import LosslessTree.Visitor.Basic

/-!
# Recording visitors

Visitors whose state is the sequence of the places they were led to. They differ in what they
record, in whether they have a typed part, and in whether their methods go on below a node.

## Main definitions

* `Method`, `Record`: the method that was called, and the record of a call.
* `Recorder.silent`, `Recorder.tokens`, `Recorder.generic`, `Recorder.flat`: visitors without a
  typed part.
* `Recorder.lvalueOnly`, `Recorder.typed`, `Recorder.typedAccessors`, `Recorder.typedWalk`: visitors
  with a typed part.
-/

namespace LosslessTree

/-- A method of a visitor that takes a node. -/
inductive Method where
  | node
  | lvalue
  | fieldSig
  | identifierVariable
  deriving DecidableEq, Repr

/-- The record of a call of a method. -/
inductive Record where
  | token (leaf : Leaf)
  | node (method : Method) (node : Node)

namespace Recorder

/-- Records a call. -/
def record (entry : Record) : Visit (Array Record) :=
  Visited.update (·.push entry)

/-- Records a node and stops there. -/
def stopAt (method : Method) (node : Node) : Visit (Array Record) :=
  record (.node method node)

/-- Records a node and walks on below it. -/
def walkFrom (method : Method) (node : Node) (below : Below (Array Record)) :
    Visit (Array Record) :=
  fun visited => below.walk (record (.node method node) visited)

/-- Records a token. -/
def token (leaf : Leaf) : Visit (Array Record) :=
  record (.token leaf)

/-- Walks everywhere and records nothing. -/
def silent : Visitor (Array Record) := {}

/-- Walks everywhere and records the tokens. -/
def tokens : Visitor (Array Record) where
  visitToken := token

/-- Walks everywhere and records nodes and tokens. -/
def generic : Visitor (Array Record) where
  visitNode := walkFrom .node
  visitToken := token

/-- Records nodes and tokens, and goes on below no node. -/
def flat : Visitor (Array Record) where
  visitNode node _ := stopAt .node node
  visitToken := token

/-- Records a node by the method of its kind and stops there. -/
def typedStops : TypedVisitor (Array Record) where
  visitLvalue view _ := stopAt .lvalue view.raw
  visitFieldSig view _ := stopAt .fieldSig view.raw
  visitIdentifierVariable view _ := stopAt .identifierVariable view.raw

/-- Like `generic`, but records lvalues by their own method and does nothing at other elements. -/
def lvalueOnly : Visitor (Array Record) where
  visitNode := walkFrom .node
  visitToken := token
  typed? := some { visitLvalue := typedStops.visitLvalue }

/-- Like `generic`, but records elements by the method of their kind and stops there. -/
def typed : Visitor (Array Record) where
  visitNode := walkFrom .node
  visitToken := token
  typed? := some typedStops

/-- Records an lvalue, then leads the visitor to its variables and to its field signature. -/
def lvalueThenAccessors (lvalue : Lvalue) (below : Below (Array Record)) : Visit (Array Record) :=
  fun visited =>
    let afterVariables := (Lvalue.identifierVariables lvalue).foldl
      (fun v view => below.acceptAt view.raw.index v) (stopAt .lvalue lvalue.raw visited)
    match Lvalue.fieldSig? lvalue with
    | some sig => below.acceptAt sig.raw.index afterVariables
    | none => afterVariables

/-- Like `typed`, but goes on from an lvalue to its variables and its field signature. -/
def typedAccessors : Visitor (Array Record) where
  visitNode := walkFrom .node
  visitToken := token
  typed? := some { typedStops with visitLvalue := lvalueThenAccessors }

/-- Like `typed`, but every typed method walks on below its node. -/
def typedWalk : Visitor (Array Record) where
  visitNode := walkFrom .node
  visitToken := token
  typed? := some {
    visitLvalue := fun view => walkFrom .lvalue view.raw
    visitFieldSig := fun view => walkFrom .fieldSig view.raw
    visitIdentifierVariable := fun view => walkFrom .identifierVariable view.raw }

end Recorder

/-- The records and trace lines of a visit that starts with nothing recorded. -/
def Visit.run (visit : Visit (Array Record)) : Visited (Array Record) :=
  visit ⟨#[], #[]⟩

end LosslessTree
