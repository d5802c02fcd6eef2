import Mathlib.Data.List.Forall2
import LosslessTree.Proofs.Identity
import LosslessTree.Proofs.Transform.Fitting
import LosslessTree.View.Element

/-!
# What accessors see of a transformed node

The accessors of an lvalue look through its children for nodes of one kind. A transformation may
change the kinds of children: a variable can become a field signature, so that the accessors find it
in another list, or in none. What they find is still told by the children one by one. Transformed on
its own, each child gives a tree, and the child of the new node at the same index looks like that
tree. So the accessors of the new node find the results of the right kind, in order.

## Main definitions

* `Node.Succeeds`: a child of the new node has the stream of the old child with replacements.
* `Node.ResultsIn`: so has the result of transforming the old child on its own.
* `Node.StandsFor`: a child of the new node looks like the result of the old child.

## Main results

* `Node.Transformable.forall₂_succeeds`: the children of a node that is kept have successors, one by
  one.
* `Forest.Sound.exists_resultsIn_child`: they can be transformed on their own.
* `Node.Succeeds.standsFor`: a successor looks like the result of the child.
* `Node.forall₂_views`: the views of one kind are views of the results of that kind.
* `Forest.Reachable.accessors_transform`: accessors and transformations commute.
-/

namespace LosslessTree

universe u v

/-! ### Looking for nodes of one kind -/

section Related

variable {α : Type u} {β : Type v} {R : α → β → Prop}

/-- Lists that are related element by element have related heads. -/
theorem rel_head? {front : List α} {back : List β} (h : List.Forall₂ R front back) :
    Option.Rel R front.head? back.head? := by
  cases h with
  | nil => exact .none
  | cons hhead _ => exact .some hhead

theorem isSome_eq_of_rel {a : Option α} {b : Option β} (h : Option.Rel R a b) :
    a.isSome = b.isSome := by
  cases h <;> rfl

end Related

/-- The views of one kind are views of the nodes of that kind. -/
theorem View.map_raw_filterMap_ofNode? (kind : NodeKind) (nodes : List Node) :
    (nodes.filterMap (ofNode? kind)).map raw = nodes.filter fun node => node.kind = kind := by
  induction nodes with
  | nil => rfl
  | cons node rest ih =>
    by_cases hkind : node.kind = kind
    · simp [ofNode?, hkind, ih]
    · simp [ofNode?, hkind, ih]

namespace Lvalue

theorem raw_identifierVariables (lvalue : Lvalue) :
    lvalue.identifierVariables.map View.raw =
      lvalue.raw.children.filter fun child => child.kind = .identifierVariable :=
  View.map_raw_filterMap_ofNode? ..

theorem raw_fieldSig? (lvalue : Lvalue) :
    lvalue.fieldSig?.map View.raw =
      lvalue.raw.children.find? fun child => child.kind = .fieldSig := by
  rw [fieldSig?, ← List.head?_filterMap, ← List.head?_map, View.map_raw_filterMap_ofNode?,
    List.head?_filter]

end Lvalue

namespace Node

variable {kept : Tree → Prop} {origin : Nat} {rule : Node → Answer} {node : Node}
  {position : List Nat} {tree : Tree}

/-! ### The children of the new node -/

/-- A child of the new node comes after a child of the old one: it has the same index, stands behind
the parts before it with replacements, and has the stream of the old child with replacements. -/
structure Succeeds (rule : Node → Answer) (node child new : Node) : Prop where
  index_eq : new.index = child.index
  offset_eq : new.offset = ((node.parts.take child.index).map (partSizeAfter rule)).sum
  realizes : child.Realizes rule new.tree

/-- The renewed children of a node are as long as its parts are with replacements. -/
theorem childrenSize_of_renews {parts : List Part} {children : List Child}
    (hall : List.Forall₂ (Renews origin rule position) parts children)
    (h : ∀ child, .node child ∈ parts → ∀ tree,
      child.renewed origin rule (position ++ [child.index]) = .ok tree →
        tree.byteLen = child.sizeAfter rule) :
    childrenSize children = (parts.map (partSizeAfter rule)).sum := by
  induction hall with
  | nil => rfl
  | @cons part child parts children hrenews _ ih =>
    have hsize : child.size = partSizeAfter rule part := by
      cases part with
      | leaf leaf =>
        obtain ⟨offset, rfl⟩ := hrenews
        rfl
      | node node =>
        obtain ⟨offset, tree, hok, rfl⟩ := hrenews
        exact h node (.head _) tree hok
    rw [childrenSize, List.map_cons, List.sum_cons, hsize,
      ih fun child hmem => h child (.tail _ hmem)]

namespace Transformable

/-- One part: a renewed child, seen in a new node behind the parts before it, is a successor; a
token has none. -/
theorem rel_succeeds (h : node.Transformable kept origin rule position)
    (hdistinct : Distinct kept origin) {index offset : Nat} {part : Part} {child : Child}
    (hpart : node.parts[index]? = some part) (hrenews : Renews origin rule position part child)
    (hoffset : offset = ((node.parts.take index).map (partSizeAfter rule)).sum) (tree : Tree) :
    Option.Rel (Succeeds rule node) part.node?
      ((top tree).part index (child.moveTo offset)).node? := by
  cases part with
  | leaf leaf =>
    obtain ⟨_, rfl⟩ := hrenews
    exact .none
  | node below =>
    obtain ⟨_, sub, hok, rfl⟩ := hrenews
    have hready := h.child hdistinct.closed (mem_children.2 (List.mem_of_getElem? hpart))
    obtain ⟨_, _, -, rfl⟩ := exists_of_getElem?_parts hpart
    exact .some ⟨rfl, (Nat.zero_add offset).trans hoffset, hready.realizes hdistinct hok⟩

/-- **The children of a node that is kept have successors in the new node**, one by one. -/
theorem forall₂_succeeds (h : node.Transformable kept origin rule position)
    (hdistinct : Distinct kept origin) (hkeep : rule node = .keep)
    (hok : node.renewed origin rule position = .ok tree) :
    List.Forall₂ (Succeeds rule node) node.children (top tree).children := by
  obtain ⟨children, hall, -, hdraft⟩ := h.exists_renewed hdistinct hkeep hok
  have hchildren : tree.children = place 0 children := congrArg Draft.children hdraft
  have hsize (count : Nat) : childrenSize (children.take count) =
      ((node.parts.take count).map (partSizeAfter rule)).sum := by
    refine childrenSize_of_renews (List.forall₂_take count hall) fun child hmem tree hok => ?_
    have hready := h.child hdistinct.closed (mem_children.2 (List.mem_of_mem_take hmem))
    exact (hready.realizes hdistinct hok).byteLen_eq
  have hlength : (top tree).parts.length = children.length := by
    rw [length_parts, tree_top, hchildren, length_place]
  -- Tokens stand for tokens and nodes for nodes; then the tokens drop out.
  refine List.rel_filterMap (R := fun part new =>
    Option.Rel (Succeeds rule node) part.node? new.node?) (fun _ _ hrel => hrel) ?_
  refine List.forall₂_iff_get.2 ⟨hall.length_eq.trans hlength.symm, fun index hlt hlt' => ?_⟩
  have hget : (top tree).parts[index]? = children[index]?.map fun child =>
      (top tree).part index (child.moveTo (childrenSize (children.take index))) := by
    rw [getElem?_parts, tree_top, hchildren, getElem?_place, Option.map_map, Nat.zero_add]
    rfl
  rw [List.getElem?_eq_getElem hlt', List.getElem?_eq_getElem (hlength ▸ hlt'), Option.map_some,
    Option.some_inj] at hget
  rw [List.get_eq_getElem, List.get_eq_getElem, hget]
  exact h.rel_succeeds hdistinct (List.getElem?_eq_getElem hlt)
    ((List.forall₂_iff_get.1 hall).2 index hlt (hlength ▸ hlt')) (hsize index) tree

end Transformable

/-! ### Children transformed on their own -/

/-- What stands in a new node for a child of the old one, where each child of the old one has its
own result: a node at the index of the child, behind the results of the parts before it, that looks
like the result of the child. -/
structure StandsFor (node : Node) (result : Node → Node) (child new : Node) : Prop where
  index_eq : new.index = child.index
  offset_eq : new.offset = ((node.parts.take child.index).map
    (Part.elim (fun before => (result before).byteLen) fun leaf => leaf.token.size)).sum
  kind_eq : new.kind = (result child).kind
  text_eq : new.text = (result child).text
  dump_eq : (top new.tree).dump = (result child).dump

/-- The result of transforming a node is a root with the stream of the node with replacements. -/
def ResultsIn (rule : Node → Answer) (node root : Node) : Prop :=
  ∃ tree, root = top tree ∧ node.Realizes rule tree

/-- A successor stands for the child if the results have the streams with replacements. -/
theorem Succeeds.standsFor {result : Node → Node} {child new : Node}
    (h : Succeeds rule node child new) (hchild : child ∈ node.children)
    (hresult : ∀ child ∈ node.children, child.ResultsIn rule (result child)) :
    StandsFor node result child new := by
  obtain ⟨tree, hroot, hrealizes⟩ := hresult child hchild
  have hsame : new.tree.events = tree.events :=
    h.realizes.events_eq.trans hrealizes.events_eq.symm
  have hsize {part : Part} (hpart : part ∈ node.parts) : partSizeAfter rule part =
      part.elim (fun before => (result before).byteLen) fun leaf => leaf.token.size := by
    cases part with
    | leaf leaf => rfl
    | node before =>
      obtain ⟨tree, hroot, hrealizes⟩ := hresult before (mem_children.2 hpart)
      rw [Part.elim, hroot]
      exact hrealizes.byteLen_eq.symm
  refine ⟨h.index_eq, ?_, ?_, ?_, ?_⟩
  · rw [h.offset_eq, List.map_congr_left fun part hpart => hsize (List.mem_of_mem_take hpart)]
  · rw [Tree.events_eq, Tree.events_eq] at hsame
    rw [hroot]
    exact Event.start.inj (List.head_eq_of_cons_eq hsame)
  · rw [hroot, text, text, ← streamText_events, hsame, streamText_events]
    rfl
  · rw [hroot]
    exact dump_eq_of_events_eq h.realizes.laidOut hrealizes.laidOut hsame

/-- **The views of one kind are views of the results of that kind**, in order. -/
theorem forall₂_views {result : Node → Node} {children news : List Node}
    (hall : List.Forall₂ (StandsFor node result) children news) (kind : NodeKind) :
    List.Forall₂ (fun child (view : View kind) => StandsFor node result child view.raw)
      (children.filter fun child => (result child).kind = kind)
      (news.filterMap (View.ofNode? kind)) := by
  rw [← List.filterMap_eq_filter]
  refine List.rel_filterMap (fun child new hstands => ?_) hall
  by_cases hkind : new.kind = kind
  · have hresult : (result child).kind = kind := hstands.kind_eq ▸ hkind
    simp only [Option.guard, View.ofNode?, hkind, hresult, decide_true, if_true, dite_true]
    exact .some hstands
  · have hresult : (result child).kind ≠ kind := hstands.kind_eq ▸ hkind
    simp only [Option.guard, View.ofNode?, hkind, hresult]
    exact .none

end Node

namespace Forest

variable {forest : Forest} {node : Node} {rule : Node → Answer}

/-- A transformation whose copies fit a word has a result, whatever its number. -/
theorem Sound.exists_resultsIn (h : forest.Sound) (hnode : forest.Holds node)
    (hanswers : forest.Answers node rule) {origin : Nat} (hfresh : origin ∉ forest.origins)
    (hfits : node.FitsOnTheWay rule) :
    ∃ root, (node.transform origin rule).result = .ok root ∧ node.ResultsIn rule root := by
  have hready := h.transformable hnode hanswers origin
  have hdistinct := h.distinct hfresh
  obtain ⟨tree, hok⟩ := (hready.exists_renewed_iff hdistinct).2 hfits
  exact ⟨.top tree, Node.result_transform_eq_ok_iff.2 ⟨tree, hok, rfl⟩, tree, rfl,
    hready.realizes hdistinct hok⟩

/-- **The children of a node that is kept can be transformed on their own.** -/
theorem Sound.exists_resultsIn_child (h : forest.Sound) (hnode : forest.Holds node)
    (hanswers : forest.Answers node rule) (hkeep : rule node = .keep) {origin : Nat} {tree : Tree}
    (hfresh : origin ∉ forest.origins) (hok : node.renewed origin rule [] = .ok tree) {child : Node}
    (hchild : child ∈ node.children) {number : Nat} (hnumber : number ∉ forest.origins) :
    ∃ root, (child.transform number rule).result = .ok root ∧ child.ResultsIn rule root := by
  have hready := h.transformable hnode hanswers origin
  have hfits := (hready.exists_renewed_iff (h.distinct hfresh)).1 ⟨tree, hok⟩
  refine h.exists_resultsIn (hnode.of_within (.of_mem_children hchild)) ?_ hnumber
    (((Node.fitsOnTheWay_of_keep hkeep).1 hfits).2 child hchild)
  exact fun below replacement hbelow => hanswers below replacement (.head hchild hbelow)

/-- **Accessors and transformations commute.** An lvalue of a run is transformed by a rule that
keeps the lvalue itself. Its children can then be transformed on their own, and the result is an
lvalue. Its variables stand for the children whose results are variables, in order; its field
signature stands for the first child whose result is a field signature, and it accesses a field
exactly if there is one. A view of the old lvalue still finds the old children. -/
theorem Reachable.accessors_transform (h : forest.Reachable) {lvalue : Lvalue} {root : Node}
    (hnode : forest.Holds lvalue.raw) (hanswers : forest.Answers lvalue.raw rule)
    (hkeep : rule lvalue.raw = .keep) {origin : Nat} (hfresh : origin ∉ forest.origins)
    (hok : (lvalue.raw.transform origin rule).result = .ok root) {number : Node → Nat}
    (hnumber : ∀ child ∈ lvalue.raw.children, number child ∉ forest.origins) :
    ∃ result : Node → Node,
      (∀ child ∈ lvalue.raw.children,
        (child.transform (number child) rule).result = .ok (result child)) ∧
      ∃ new : Lvalue, new.raw = root ∧
        List.Forall₂ (fun child view => Node.StandsFor lvalue.raw result child view.raw)
          (lvalue.raw.children.filter fun child => (result child).kind = .identifierVariable)
          new.identifierVariables ∧
        Option.Rel (fun child view => Node.StandsFor lvalue.raw result child view.raw)
          (lvalue.raw.children.find? fun child => (result child).kind = .fieldSig)
          new.fieldSig? ∧
        (new.isFieldAccess = true ↔
          ∃ child ∈ lvalue.raw.children, (result child).kind = .fieldSig) ∧
        ∀ old : Lvalue, (forest.add origin root.tree).Holds old.raw → (old == lvalue) = true →
          old.identifierVariables.map View.raw =
            lvalue.raw.children.filter (fun child => child.kind = .identifierVariable) ∧
          old.fieldSig?.map View.raw =
            lvalue.raw.children.find? fun child => child.kind = .fieldSig := by
  have hgrown := h.sound.step (.transform hfresh hnode hanswers hok)
  obtain ⟨tree, hrenewed, rfl⟩ := Node.result_transform_eq_ok_iff.1 hok
  have hready := h.sound.transformable hnode hanswers origin
  have hdistinct := h.sound.distinct hfresh
  have : Nonempty Node := ⟨lvalue.raw⟩
  choose! result hresult using fun child (hchild : child ∈ lvalue.raw.children) =>
    h.sound.exists_resultsIn_child hnode hanswers hkeep hfresh hrenewed hchild
      (hnumber child hchild)
  have hall : List.Forall₂ (Node.StandsFor lvalue.raw result) lvalue.raw.children
      (Node.top tree).children := by
    have hmem := (List.forall₂_and_left _ _).2
      ⟨fun _ hchild => hchild, hready.forall₂_succeeds hdistinct hkeep hrenewed⟩
    exact hmem.imp fun child new hnew =>
      hnew.2.standsFor hnew.1 fun child hchild => (hresult child hchild).2
  have hkind : (Node.top tree).kind = .lvalue := by
    obtain ⟨_, -, -, hdraft⟩ := hready.exists_renewed hdistinct hkeep hrenewed
    exact (congrArg Draft.kind hdraft).trans lvalue.kind_eq
  have hsig : Option.Rel (fun child view => Node.StandsFor lvalue.raw result child view.raw)
      (lvalue.raw.children.find? fun child => (result child).kind = .fieldSig)
      (Lvalue.fieldSig? ⟨.top tree, hkind⟩) := by
    rw [Lvalue.fieldSig?, ← List.head?_filterMap, ← List.head?_filter]
    exact rel_head? (Node.forall₂_views hall .fieldSig)
  refine ⟨result, fun child hchild => (hresult child hchild).1, ⟨.top tree, hkind⟩, rfl,
    Node.forall₂_views hall .identifierVariable, hsig, ?_, fun old hold hsame => ?_⟩
  · rw [Lvalue.isFieldAccess, ← isSome_eq_of_rel hsig, List.find?_isSome]
    simp only [decide_eq_true_eq]
  · have hraw := (hgrown.beq_iff_eq hold (hnode.add origin tree)).1 hsame
    rw [old.raw_identifierVariables, old.raw_fieldSig?, hraw]
    exact ⟨rfl, rfl⟩

/-- A field signature with the name `fg`, as the second child of a root that is built. -/
def signatureTree : Tree :=
  ⟨⟨0, [1]⟩, .fieldSig, 2, [.token 0 ⟨0, [1, 0]⟩ (.identifier "fg")]⟩

/-- A variable and a field signature below an lvalue. -/
def accessTree : Tree :=
  ⟨⟨0, []⟩, .lvalue, 3, [.node 0 (shortVariable 0), .node 1 signatureTree]⟩

/-- The view of an lvalue with a variable and a field signature. -/
def access : Lvalue :=
  ⟨.top accessTree, rfl⟩

/-- When the variable and the field signature are exchanged, the accessors find the variable behind
the field signature. -/
theorem accessors_exchanged :
    (empty.add 0 accessTree).Reachable ∧ (empty.add 0 accessTree).Holds access.raw ∧
    (empty.add 0 accessTree).Answers access.raw (exchangeChildren access.raw) ∧
    exchangeChildren access.raw access.raw = .keep ∧ 1 ∉ (empty.add 0 accessTree).origins ∧
    ∃ new : Lvalue,
      (access.raw.transform 1 (exchangeChildren access.raw)).result = .ok new.raw ∧
      (∃ view, new.identifierVariables = [view] ∧ view.raw.index = 1 ∧ view.raw.offset = 2 ∧
        view.text = "x") ∧
      ∃ view, new.fieldSig? = some view ∧ view.raw.index = 0 ∧ view.raw.offset = 0 ∧
        view.text = "fg" := by
  have hreachable : (empty.add 0 accessTree).Reachable := reachable_of_build rfl
  have hholds : (empty.add 0 accessTree).Holds access.raw := holds_top empty 0 accessTree
  have hanswers := answers_exchangeChildren accessTree
  have hfresh : 1 ∉ (empty.add 0 accessTree).origins := by decide
  obtain ⟨result, hresult, new, hnew, hvariables, hsig, -⟩ :=
    hreachable.accessors_transform hholds hanswers rfl hfresh rfl fun _ _ => hfresh
  have hchildren : access.raw.children =
      [.inner access.raw 0 0 (shortVariable 0), .inner access.raw 1 1 signatureTree] := rfl
  have hfirst : result (.inner access.raw 0 0 (shortVariable 0)) = .top signatureTree :=
    (Except.ok.inj (hresult _ (.head _))).symm
  have hsecond : result (.inner access.raw 1 1 signatureTree) = .top (shortVariable 0) :=
    (Except.ok.inj (hresult _ (.tail _ (.head _)))).symm
  rw [hchildren] at hvariables hsig
  simp only [List.filter_cons, hfirst, hsecond] at hvariables
  simp only [List.find?_cons, hfirst, hsecond] at hsig
  refine ⟨hreachable, hholds, hanswers, rfl, hfresh, new, ?_, ?_, ?_⟩
  · rw [hnew]
    rfl
  · obtain ⟨view, rest, hstands, hrest, hviews⟩ := List.forall₂_cons_left_iff.1 hvariables
    cases hrest
    refine ⟨view, hviews, hstands.index_eq, hstands.offset_eq.trans ?_, hstands.text_eq.trans ?_⟩
    · -- the result of the part in front has two bytes
      change (result (.inner access.raw 0 0 (shortVariable 0))).byteLen + 0 = 2
      rw [hfirst]
      rfl
    · rw [hsecond]
      rfl
  · cases hfound : new.fieldSig? with
    | none =>
      rw [hfound] at hsig
      cases hsig
    | some view =>
      rw [hfound] at hsig
      obtain ⟨hstands⟩ := hsig
      refine ⟨view, rfl, hstands.index_eq, hstands.offset_eq, hstands.text_eq.trans ?_⟩
      rw [hfirst]
      rfl

end Forest

end LosslessTree
