import LosslessTree.Proofs.Exposed
import LosslessTree.Proofs.Visitor.Untyped

/-!
# Visitors with a typed part

A visitor with a typed part is led to the typed method at every element and to the general method at
every other node. What it comes to depends on what its typed methods do below an element. If they
stop there, the visitor comes to what no element hides; if they walk on, it comes to the whole
subtree, as a visitor without a typed part does. In both cases each node is recorded by the method
of its kind, except for a node at which somebody calls the general method directly.

## Main definitions

* `NodeKind.method`, `Element.method`: the method that is meant for a kind, and the one that takes an
  element.
* `Part.recordBy`: the record of a part, given the methods that take nodes.
* `Visitor.RecordsByKind`: a visitor with a typed part that records what it is led to, and stops at
  elements or walks on.

## Main results

* `Visitor.RecordsByKind.accept_eq`, `Visitor.RecordsByKind.walk_eq`: what such a visitor records.
* `Visitor.RecordsByKind.stopping_records_exposed`: a visitor that stops at elements.
* `Visitor.RecordsByKind.walking_records_alike`: a visitor that walks on, and one without a typed
  part.
-/

namespace LosslessTree

universe u v

/-! ### Methods and records -/

/-- The method that is meant for nodes of a kind: its own for the kinds that have a typed view, and
the general one for the others. -/
def NodeKind.method : NodeKind → Method
  | lvalue => .lvalue
  | fieldSig => .fieldSig
  | identifierVariable => .identifierVariable
  | file | assignStatement => .node

/-- The typed method that takes an element. -/
def Element.method : Element → Method
  | lvalue _ => .lvalue
  | fieldSig _ => .fieldSig
  | identifierVariable _ => .identifierVariable

/-- An element is taken by the method that is meant for its kind. -/
theorem Element.method_eq (element : Element) : element.method = element.raw.kind.method := by
  cases element with
  | lvalue view => rw [raw, view.kind_eq]; rfl
  | fieldSig view => rw [raw, view.kind_eq]; rfl
  | identifierVariable view => rw [raw, view.kind_eq]; rfl

/-- The general method is meant for the nodes that are no elements. -/
theorem Node.method_eq_node_iff (node : Node) : node.kind.method = .node ↔ ¬node.IsElement := by
  unfold Node.IsElement
  cases node.kind <;> simp [NodeKind.method]

/-- The record of a part, where `method` tells the method that takes a node. -/
def Part.recordBy (method : Node → Method) : Part → Record :=
  Part.elim (fun node => .node (method node) node) .token

/-- The record of a part by the method that is meant for it. -/
def Part.recordByKind : Part → Record :=
  Part.recordBy fun node => node.kind.method

/-- The record of a part by the general method. -/
def Part.recordUntyped : Part → Record :=
  Part.recordBy fun _ => .node

/-- Records made one after the other. -/
def recordAll {σ : Type u} (record : Record → σ → σ) (entries : List Record) (state : σ) : σ :=
  entries.foldl (fun state entry => record entry state) state

theorem recordAll_append {σ : Type u} (record : Record → σ → σ) (front back : List Record)
    (state : σ) :
    recordAll record (front ++ back) state = recordAll record back (recordAll record front state) :=
  List.foldl_append

/-- The parts of a subtree in textual order that stand strictly below no element of it. -/
def Node.downToElements (node : Node) : List Part :=
  node.exposed fun below => below.IsElement

/-- What stands strictly below no element, of a node; and a token itself. -/
def Part.downToElements : Part → List Part :=
  Node.exposedOf fun below => below.IsElement

namespace Visitor

variable {σ : Type u} {τ : Type v} {visitor : Visitor σ} {record : Record → σ → σ} {stops : Bool}

/-- A visitor with a typed part that records each node by the method that takes it, and each token.
The general method walks on below its node; the typed methods stop there, or walk on as well. -/
structure RecordsByKind (visitor : Visitor σ) (record : Record → σ → σ) (stops : Bool) : Prop where
  exists_typed : ∃ typed, visitor.typed? = some typed ∧ ∀ element below visited,
    typed.method element below visited = (if stops then id else below.walk)
      (visited.update (record (.node element.method element.raw)))
  visitNode_eq : ∀ node below visited,
    visitor.visitNode node below visited = below.walk (visited.update (record (.node .node node)))
  visitToken_eq : ∀ leaf visited,
    visitor.visitToken leaf visited = visited.update (record (.token leaf))

namespace RecordsByKind

/-- At a node, be it an element or not, the node is recorded by the method of its kind; then the
visitor walks on, unless it stops at elements and the node is one. -/
theorem lead_eq (h : visitor.RecordsByKind record stops) (node : Node) (below : Below σ)
    (visited : Visited σ) :
    visitor.lead node below visited = (if stops && node.IsElement then id else below.walk)
      (visited.update (record (.node node.kind.method node))) := by
  obtain ⟨typed, htyped, hmethod⟩ := h.exists_typed
  unfold lead
  rcases Element.ofNode?_cases node with ⟨hkind, element, helement, hraw⟩ | ⟨hkind, hnone⟩
  · rw [helement]
    simp only [leadElement, htyped, hmethod, element.method_eq, hraw, hkind, decide_true,
      Bool.and_true]
  · rw [hnone]
    simp only [h.visitNode_eq, node.method_eq_node_iff.2 hkind, hkind, decide_false,
      Bool.and_false, Bool.false_eq_true, if_false]

/-- A walk records what is exposed of each part, one after the other, if leading the visitor to a
node records what is exposed of its subtree. -/
theorem walk_eq_of (h : visitor.RecordsByKind record stops) {stop : Node → Bool} (node : Node)
    (haccept : ∀ child ∈ node.children, ∀ visited : Visited σ, visitor.accept child visited =
      visited.update (recordAll record ((child.exposed stop).map Part.recordByKind)))
    (visited : Visited σ) :
    visitor.walk node visited = visited.update
      (recordAll record ((node.parts.flatMap (Node.exposedOf stop)).map Part.recordByKind)) := by
  have hpart {part : Part} (hmem : part ∈ node.parts) (visited : Visited σ) :
      visitor.acceptPart part visited = visited.update
        (recordAll record ((Node.exposedOf stop part).map Part.recordByKind)) := by
    cases part with
    | leaf leaf => exact h.visitToken_eq leaf visited
    | node child => exact haccept child (Node.mem_children.2 hmem) visited
  rw [Visitor.walk_eq]
  generalize node.parts = parts at hpart
  induction parts generalizing visited with
  | nil => rfl
  | cons part rest ih =>
    rw [List.foldl_cons, hpart (.head _), ih _ fun hmem => hpart (.tail _ hmem),
      List.flatMap_cons, List.map_append]
    exact congrArg (Visited.mk · _) (recordAll_append ..).symm

/-- **What a visitor with a typed part records**: the parts of the subtree that no element hides, if
its typed methods stop, and otherwise all parts, in textual order. -/
theorem accept_eq (h : visitor.RecordsByKind record stops) (node : Node) (visited : Visited σ) :
    visitor.accept node visited = visited.update (recordAll record
      ((node.exposed fun below => stops && below.IsElement).map Part.recordByKind)) := by
  induction node using Node.induction generalizing visited with
  | step node ih =>
    have hwalk := h.walk_eq_of node fun child hchild visited => ih child hchild visited
    rw [accept, h.lead_eq, Node.exposed_eq]
    split_ifs
    · rfl
    · exact hwalk _

/-- A walk records what the visitor records at each part, one after the other. -/
theorem walk_eq (h : visitor.RecordsByKind record stops) (node : Node) (visited : Visited σ) :
    visitor.walk node visited = visited.update (recordAll record
      ((node.parts.flatMap (Node.exposedOf fun below => stops && below.IsElement)).map
        Part.recordByKind)) :=
  h.walk_eq_of node (fun child _ => h.accept_eq child) visited

/-- The general method records its node, whatever its kind, and walks on. -/
theorem visit_eq (h : visitor.RecordsByKind record stops) (node : Node) (visited : Visited σ) :
    visitor.visit node visited =
      visitor.walk node (visited.update (record (.node .node node))) :=
  h.visitNode_eq node (visitor.below node) visited

/-- **A visitor that stops at elements records what no element hides.** Led to a node, it records the
nodes and tokens of the subtree in textual order, each one once, and leaves out exactly what stands
strictly below an element. Each node is recorded by the method of its kind and by no other. A walk
below a node records this of each part, one after the other, also if the node is an element; and
the general method, called at any node, records the node by itself and then walks. -/
theorem stopping_records_exposed (h : visitor.RecordsByKind record true) (node : Node)
    (visited : Visited σ) :
    visitor.accept node visited =
      visited.update (recordAll record (node.downToElements.map Part.recordByKind)) ∧
    visitor.walk node visited = visited.update (recordAll record
      ((node.parts.flatMap Part.downToElements).map Part.recordByKind)) ∧
    visitor.visit node visited = visited.update (recordAll record
      (.node .node node :: (node.parts.flatMap Part.downToElements).map Part.recordByKind)) ∧
    node.downToElements.Sublist node.allParts ∧
    node.downToElements.Pairwise (fun before after =>
      (before == after) = false ∧ before.path < after.path) ∧
    (∀ part, part ∈ node.downToElements ↔ node.Reaches part ∧ ∀ above, node.Within above →
      above.IsElement → above.Reaches part → part = .node above) ∧
    ∀ method below, .node method below ∈ node.downToElements.map Part.recordByKind ↔
      .node below ∈ node.downToElements ∧ method = below.kind.method := by
  have hsublist : node.downToElements.Sublist node.allParts := node.exposed_sublist _
  have hmem (part : Part) : part ∈ node.downToElements ↔ node.Reaches part ∧
      ∀ above, node.Within above → above.IsElement → above.Reaches part → part = .node above := by
    rw [Node.downToElements, Node.mem_exposed_iff]
    simp only [Node.Exposes, decide_eq_true_eq]
  refine ⟨h.accept_eq node visited, h.walk_eq node visited, ?_, hsublist,
    (node.pairwise_allParts.and node.pairwise_path_allParts).sublist hsublist, hmem, ?_⟩
  · rw [h.visit_eq, h.walk_eq]
    rfl
  · intro method below
    rw [List.mem_map]
    constructor
    · rintro ⟨part, hpart, hrecord⟩
      cases part with
      | leaf leaf => cases hrecord
      | node found =>
        cases hrecord
        exact ⟨hpart, rfl⟩
    · rintro ⟨hpart, rfl⟩
      exact ⟨.node below, hpart, rfl⟩

/-- **A visitor whose typed methods walk on comes to the same nodes and tokens as one without a typed
part**, in the same order: led to a node, walking below it, or called at it. The records differ in
the method alone: where the visitor without a typed part uses the general method, the other one uses
the method of the kind of the node, unless the general method was called to begin with. -/
theorem walking_records_alike {untyped : Visitor τ} {record' : Record → τ → τ}
    (h : visitor.RecordsByKind record false)
    (huntyped : untyped.Records fun part => record' part.recordUntyped)
    (node : Node) (visited : Visited σ) (visited' : Visited τ) :
    ((visitor.accept node visited).state =
        recordAll record (node.allParts.map Part.recordByKind) visited.state ∧
      (untyped.accept node visited').state =
        recordAll record' (node.allParts.map Part.recordUntyped) visited'.state) ∧
    ((visitor.walk node visited).state = recordAll record
        ((node.parts.flatMap Node.listed).map Part.recordByKind) visited.state ∧
      (untyped.walk node visited').state = recordAll record'
        ((node.parts.flatMap Node.listed).map Part.recordUntyped) visited'.state) ∧
    (visitor.visit node visited).state = recordAll record
        (.node .node node :: (node.parts.flatMap Node.listed).map Part.recordByKind)
        visited.state ∧
      (untyped.visit node visited').state = recordAll record'
        (.node .node node :: (node.parts.flatMap Node.listed).map Part.recordUntyped)
        visited'.state := by
  have hnever (below : Node) : (false && decide below.IsElement) = false := Bool.false_and _
  have hwalk (visited : Visited σ) : visitor.walk node visited = visited.update
      (recordAll record ((node.parts.flatMap Node.listed).map Part.recordByKind)) := by
    rw [h.walk_eq, Node.exposedOf_of_forall hnever]
  have hwalk' (visited : Visited τ) : (untyped.walk node visited).state = recordAll record'
      ((node.parts.flatMap Node.listed).map Part.recordUntyped) visited.state := by
    rw [huntyped.walk_eq, state_foldl_recorded, recordAll, List.foldl_map]
  refine ⟨⟨?_, ?_⟩, ⟨congrArg Visited.state (hwalk visited), hwalk' visited'⟩, ?_, ?_⟩
  · rw [h.accept_eq, Node.exposed_of_forall hnever]
    rfl
  · rw [huntyped.accept_eq, state_foldl_recorded, recordAll, List.foldl_map]
  · rw [h.visit_eq, hwalk]
    rfl
  · rw [visit, huntyped.visitNode_eq]
    exact hwalk' _

end RecordsByKind

end Visitor

namespace Forest

/-- How the recording visitors keep a record: behind those that are there. -/
def appended (entry : Record) (records : Array Record) : Array Record :=
  records.push entry

/-- The recording visitor that stops at elements comes to the two sides of `x=y` and to the token
between them; called at the left-hand side by the general method, it comes to the variable there. -/
theorem typed_records_assignment :
    Recorder.typed.RecordsByKind appended true ∧
    (Recorder.typed.accept (.top assignmentTree)).run.state.toList =
      (Node.top assignmentTree).downToElements.map Part.recordByKind ∧
    (Node.top assignmentTree).downToElements.map (fun part => (part.path, part.text)) =
      [([], "x=y"), ([0], "x"), ([1], "="), ([2], "y")] ∧
    (Recorder.typed.visit leftSide).run.state.toList =
      .node .node leftSide :: leftSide.children.map (.node .identifierVariable) := by
  have hrecords : Recorder.typed.RecordsByKind appended true := by
    refine ⟨⟨Recorder.typedStops, rfl, fun element below visited => ?_⟩, fun _ _ _ => rfl,
      fun _ _ => rfl⟩
    cases element <;> rfl
  obtain ⟨haccept, -⟩ := hrecords.stopping_records_exposed (.top assignmentTree) ⟨#[], #[]⟩
  obtain ⟨-, -, hvisit, -⟩ := hrecords.stopping_records_exposed leftSide ⟨#[], #[]⟩
  refine ⟨hrecords, ?_, rfl, ?_⟩
  · rw [Visit.run, haccept]
    rfl
  · rw [Visit.run, hvisit]
    rfl

/-- The recording visitor whose typed methods walk on and the one without a typed part come to the
same nodes and tokens of `x=y`. -/
theorem typedWalk_records_assignment :
    Recorder.typedWalk.RecordsByKind appended false ∧
    Recorder.generic.Records (fun part => appended part.recordUntyped) ∧
    (Recorder.typedWalk.accept (.top assignmentTree)).run.state.toList =
      (Node.top assignmentTree).allParts.map Part.recordByKind ∧
    (Recorder.generic.accept (.top assignmentTree)).run.state.toList =
      (Node.top assignmentTree).allParts.map Part.recordUntyped := by
  have htyped : Recorder.typedWalk.RecordsByKind appended false := by
    refine ⟨⟨_, rfl, fun element below visited => ?_⟩, fun _ _ _ => rfl, fun _ _ => rfl⟩
    cases element <;> rfl
  have hgeneric : Recorder.generic.Records (fun part => appended part.recordUntyped) :=
    ⟨rfl, fun _ _ _ => rfl, fun _ _ => rfl⟩
  obtain ⟨⟨hstate, hstate'⟩, -⟩ := htyped.walking_records_alike hgeneric (.top assignmentTree)
    ⟨#[], #[]⟩ ⟨#[], #[]⟩
  refine ⟨htyped, hgeneric, ?_, ?_⟩
  · rw [Visit.run, hstate]
    rfl
  · rw [Visit.run, hstate']
    rfl

end Forest

end LosslessTree
