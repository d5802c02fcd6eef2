import LosslessTree.Proofs.Listing
import LosslessTree.Visitor.Recording

/-!
# Visitors without a typed part

A visitor without a typed part is led to its general method at every node, by way of the element
that the node may be. If that method walks on below the node each time, the visitor is led to the
whole subtree: to its nodes and tokens as they are listed, and one trace line is written for each
node that is an element.

## Main definitions

* `Node.IsElement`: the node is of a kind that has a typed view.
* `Visitor.Records`: a visitor without a typed part that records what it is led to, and walks on.
* `untypedLines`: the trace lines that are written for some parts.

## Main results

* `Visitor.Records.accept_eq`: such a visitor records the listing of the subtree.
* `Forest.Holds.accept_records_listing`: what is recorded and what is traced.
-/

namespace LosslessTree

universe u

variable {σ : Type u}

/-- The node is of one of the kinds that have a typed view. -/
def Node.IsElement (node : Node) : Prop :=
  node.kind = .lvalue ∨ node.kind = .fieldSig ∨ node.kind = .identifierVariable

instance (node : Node) : Decidable node.IsElement :=
  inferInstanceAs (Decidable (_ ∨ _ ∨ _))

/-- A node of a kind that has a typed view is an element, and no other node is. -/
theorem Element.ofNode?_cases (node : Node) :
    (node.IsElement ∧ ∃ element, ofNode? node = some element ∧ element.raw = node) ∨
      ¬node.IsElement ∧ ofNode? node = none := by
  unfold ofNode? Node.IsElement
  split <;> simp_all [raw]

/-- The trace lines that are written for some parts, if there is no typed part. -/
def untypedLines (parts : List Part) : List TraceLine :=
  ((parts.filterMap Part.node?).filter fun node => node.IsElement).map fun node =>
    .visitedUntyped node.kind node.offset

theorem untypedLines_cons (part : Part) (rest : List Part) :
    untypedLines (part :: rest) = untypedLines [part] ++ untypedLines rest := by
  rw [← List.singleton_append, untypedLines, List.filterMap_append, List.filter_append,
    List.map_append]
  rfl

namespace Visitor

/-- A visitor without a typed part that records each node and token it is led to, and walks on below
each node. -/
structure Records (visitor : Visitor σ) (record : Part → σ → σ) : Prop where
  typed?_eq : visitor.typed? = none
  visitNode_eq : ∀ node below visited,
    visitor.visitNode node below visited = below.walk (visited.update (record (.node node)))
  visitToken_eq : ∀ leaf visited,
    visitor.visitToken leaf visited = visited.update (record (.leaf leaf))

/-- A visitor after a part was recorded, with the trace line for it. -/
def recorded (record : Part → σ → σ) (visited : Visited σ) (part : Part) : Visited σ :=
  ⟨record part visited.state, visited.trace ++ (untypedLines [part]).toArray⟩

theorem state_foldl_recorded (record : Part → σ → σ) (parts : List Part) (visited : Visited σ) :
    (parts.foldl (recorded record) visited).state =
      parts.foldl (fun state part => record part state) visited.state := by
  induction parts generalizing visited with
  | nil => rfl
  | cons part rest ih => exact ih (recorded record visited part)

theorem trace_foldl_recorded (record : Part → σ → σ) (parts : List Part) (visited : Visited σ) :
    (parts.foldl (recorded record) visited).trace =
      visited.trace ++ (untypedLines parts).toArray := by
  induction parts generalizing visited with
  | nil => exact Array.append_empty.symm
  | cons part rest ih =>
    rw [List.foldl_cons, ih, untypedLines_cons part rest, ← List.append_toArray,
      ← Array.append_assoc]
    rfl

namespace Records

variable {visitor : Visitor σ} {record : Part → σ → σ}

/-- At a node, be it an element or not, the node is recorded and the visitor walks on. -/
theorem lead_eq (h : visitor.Records record) (node : Node) (below : Below σ)
    (visited : Visited σ) :
    visitor.lead node below visited = below.walk (recorded record visited (.node node)) := by
  unfold lead
  rcases Element.ofNode?_cases node with ⟨hkind, element, helement, hraw⟩ | ⟨hkind, hnone⟩
  · rw [helement]
    simp only [leadElement, h.typed?_eq, h.visitNode_eq, hraw]
    simp [recorded, untypedLines, Part.node?, hkind, Visited.write, Visited.update]
  · rw [hnone]
    simp only [h.visitNode_eq]
    simp [recorded, untypedLines, Part.node?, hkind, Visited.update]

/-- A walk records what is listed of each part, one after the other, if leading the visitor to a
node records the listing of its subtree. -/
theorem walk_eq_of (h : visitor.Records record) (node : Node)
    (haccept : ∀ child ∈ node.children, ∀ visited : Visited σ,
      visitor.accept child visited = child.allParts.foldl (recorded record) visited)
    (visited : Visited σ) :
    visitor.walk node visited =
      (node.parts.flatMap Node.listed).foldl (recorded record) visited := by
  have hpart {part : Part} (hmem : part ∈ node.parts) (visited : Visited σ) :
      visitor.acceptPart part visited = (Node.listed part).foldl (recorded record) visited := by
    cases part with
    | node child => exact haccept child (Node.mem_children.2 hmem) visited
    | leaf leaf =>
      rw [acceptPart, h.visitToken_eq]
      exact congrArg (Visited.mk _) Array.append_empty.symm
  rw [Visitor.walk_eq, List.foldl_flatMap]
  exact List.foldl_ext _ _ _ fun visited part hmem => hpart hmem visited

/-- **A visitor that records and walks on records the listing of the subtree.** -/
theorem accept_eq (h : visitor.Records record) (node : Node) (visited : Visited σ) :
    visitor.accept node visited = node.allParts.foldl (recorded record) visited := by
  induction node using Node.induction generalizing visited with
  | step node ih =>
    have hwalk := h.walk_eq_of node fun child hchild visited => ih child hchild visited
    rw [accept, h.lead_eq, Node.allParts_eq_cons, List.foldl_cons, ← hwalk]
    rfl

/-- A walk records what is listed of each part, one after the other. -/
theorem walk_eq (h : visitor.Records record) (node : Node) (visited : Visited σ) :
    visitor.walk node visited =
      (node.parts.flatMap Node.listed).foldl (recorded record) visited :=
  h.walk_eq_of node (fun child _ => h.accept_eq child) visited

end Records

end Visitor

/-- **A visitor without a typed part, led to a node that a run holds, records the subtree.** If it
records each node and token that it is led to and walks on below each node, it records the nodes and
tokens of the subtree, all of them and each one once, in textual order, a node before what stands
below it. The nodes are those that a walk enters, in the same order; the tokens spell the text of
the node; and for each node that is an element one trace line is written, in the same order. -/
theorem Forest.Holds.accept_records_listing {forest : Forest} {node : Node}
    (hnode : forest.Holds node) {visitor : Visitor σ} {record : Part → σ → σ}
    (hrecords : visitor.Records record) (visited : Visited σ) :
    (visitor.accept node visited).state =
      node.allParts.foldl (fun state part => record part state) visited.state ∧
    (∀ part, part ∈ node.allParts ↔ node.Reaches part) ∧
    node.allParts.Pairwise (fun before after =>
      (before == after) = false ∧ before.path < after.path) ∧
    node.allParts.filterMap Part.node? = node.walkEvents.filterMap WalkEvent.entered? ∧
    String.join ((node.allParts.filterMap Part.leaf?).map Leaf.fullText) = node.text ∧
    ∃ lines : List TraceLine,
      (visitor.accept node visited).trace = visited.trace ++ lines.toArray ∧
      lines.map TraceLine.message =
        ((node.allParts.filterMap Part.node?).filter fun below => below.IsElement).map fun below =>
          "generic traversal of " ++ below.kind.name ++ "@" ++ below.offset.repr := by
  obtain ⟨tree, -, hwithin⟩ := hnode
  rw [hrecords.accept_eq, Walk.walkEvents_eq hwithin]
  refine ⟨Visitor.state_foldl_recorded .., fun part => Node.mem_allParts_iff,
    node.pairwise_allParts.and node.pairwise_path_allParts, node.filterMap_node?_allParts,
    node.tokenText_allParts, untypedLines node.allParts, Visitor.trace_foldl_recorded .., ?_⟩
  rw [untypedLines, List.map_map]
  rfl

namespace Forest

/-- The record that the recording visitor makes of a part. -/
def recordOf (part : Part) : Record :=
  part.elim (.node .node) .token

/-- The recording visitor is led to the nodes and tokens of `x=y`, and the three elements among
them leave a trace. -/
theorem generic_records_assignment :
    (empty.add 0 assignmentTree).Holds (.top assignmentTree) ∧
    Recorder.generic.Records (fun part records => records.push (recordOf part)) ∧
    (Recorder.generic.accept (.top assignmentTree)).run.state.toList =
      (Node.top assignmentTree).allParts.map recordOf ∧
    (Node.top assignmentTree).allParts.map Part.path =
      [[], [0], [0, 0], [0, 0, 0], [1], [2], [2, 0]] ∧
    (Recorder.generic.accept (.top assignmentTree)).run.trace.toList.map TraceLine.message =
      ["generic traversal of Lvalue@0", "generic traversal of IdentifierVariable@0",
        "generic traversal of IdentifierVariable@2"] := by
  have hholds : (empty.add 0 assignmentTree).Holds (.top assignmentTree) :=
    ⟨assignmentTree, .head _, .refl _⟩
  have hrecords : Recorder.generic.Records
      (fun part records => records.push (recordOf part)) :=
    ⟨rfl, fun _ _ _ => rfl, fun _ _ => rfl⟩
  obtain ⟨hstate, -⟩ := hholds.accept_records_listing hrecords ⟨#[], #[]⟩
  refine ⟨hholds, hrecords, ?_, rfl, by rfl⟩
  exact (congrArg Array.toList hstate).trans rfl

end Forest

end LosslessTree
