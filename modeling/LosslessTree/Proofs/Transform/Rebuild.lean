import LosslessTree.Proofs.Builder.Grammar
import LosslessTree.Proofs.Dump
import LosslessTree.Proofs.Forest

/-!
# Transforming and building anew

A transformation patches copies of nodes and shares what it can. The result looks like the tree that
a new builder makes from the stream in which the stream of every topmost replaced node gives way to
the stream of its replacement. So nothing of how the transformation goes about it can be seen.

## Main definitions

* `Node.eventsWith`: the stream of a subtree with replacements.

## Main results

* `Node.Transformable.events_eq`: the stream of the new tree is the stream with replacements.
* `Node.eventsWith_of_forall_keep`: without a replacement it is the old stream.
* `Node.Within.exists_split_only`: replacing a single node replaces its stream.
* `Forest.Reachable.dump_transform_eq_dump_build`: transforming and building anew give trees that
  look the same.
-/

namespace LosslessTree

namespace Node

/-- The stream of a branch: a token, and the stream found for a node. -/
def eventsOf : Branch (List Event) → List Event
  | .leaf leaf => [.push leaf.token]
  | .node _ events => events ()

/-- The stream of a subtree in which the stream of every topmost node that the rule replaces gives
way to the stream of its replacement. -/
def eventsWith (rule : Node → Answer) (node : Node) : List Event :=
  node.fold fun here branches =>
    match rule here with
    | .replace replacement => replacement.tree.events
    | .keep => .start here.kind :: branches.flatMap eventsOf ++ [.close]

variable {kept : Tree → Prop} {origin : Nat} {rule : Node → Answer} {node : Node}
  {position : List Nat}

/-- The stream of a part with replacements. -/
def partEventsWith (rule : Node → Answer) : Part → List Event :=
  Part.elim (eventsWith rule) fun leaf => [.push leaf.token]

theorem eventsWith_of_replace {replacement : Node} (h : rule node = .replace replacement) :
    node.eventsWith rule = replacement.tree.events := by
  rw [eventsWith, fold_eq, h]

theorem eventsWith_of_keep (h : rule node = .keep) :
    node.eventsWith rule =
      .start node.kind :: node.parts.flatMap (partEventsWith rule) ++ [.close] := by
  have hbranch : (fun part => eventsOf (Part.branch (eventsWith rule) part)) =
      partEventsWith rule := by
    funext part
    cases part <;> rfl
  rw [eventsWith, fold_eq, h]
  simp only [List.flatMap_map]
  rw [← hbranch]
  rfl

/-- Without a replacement the stream with replacements is the old one. -/
theorem eventsWith_of_forall_keep (h : ∀ below, node.Within below → rule below = .keep) :
    node.eventsWith rule = node.tree.events := by
  induction node using Node.induction with
  | step node ih =>
    have hparts : node.parts.flatMap (partEventsWith rule) = node.parts.flatMap Part.events := by
      refine List.flatMap_congr fun part hpart => ?_
      cases part with
      | leaf leaf => rfl
      | node child =>
        have hchild := mem_children.2 hpart
        exact ih child hchild fun below hbelow => h below (.head hchild hbelow)
    rw [eventsWith_of_keep (h node (.refl node)), hparts, ← events_eq_parts]

/-- If only one child may change, only the stream of that child may change. -/
theorem eventsWith_eq_append {child : Node} (hrule : rule node = .keep)
    (hchild : child ∈ node.children)
    (hrest : ∀ other, .node other ∈ node.parts.take child.index ++
      node.parts.drop (child.index + 1) → ∀ below, other.Within below → rule below = .keep) :
    node.eventsWith rule =
      node.before child.index ++ child.eventsWith rule ++ node.behind child.index := by
  have hparts (parts : List Part) (hsub : parts ⊆ node.parts.take child.index ++
      node.parts.drop (child.index + 1)) :
      parts.flatMap (partEventsWith rule) = parts.flatMap Part.events := by
    refine List.flatMap_congr fun part hpart => ?_
    cases part with
    | leaf leaf => rfl
    | node other => exact eventsWith_of_forall_keep (hrest other (hsub hpart))
  have hfront := hparts _ (List.subset_append_left _ _)
  have hback := hparts _ (List.subset_append_right _ _)
  rw [eventsWith_of_keep hrule, parts_eq_append (getElem?_parts_of_mem_children hchild),
    List.flatMap_append, List.flatMap_cons, hfront, hback]
  simp [before, behind, partEventsWith, Part.elim]

/-- **Replacing a node replaces its stream**, wherever the node stands. -/
theorem Within.exists_split_only {tree : Tree} {start target : Node} (hbelow : start.Within target)
    (hstart : (top tree).Within start) (hlaid : tree.LaidOut) (new : Tree) :
    ∃ front back, start.tree.events = front ++ target.tree.events ++ back ∧
      start.eventsWith (only target (top new)) = front ++ new.events ++ back ∧
      (Cursor.mk start.path start.offset).after front = ⟨target.path, target.offset⟩ := by
  induction hbelow using Relation.ReflTransGen.head_induction_on with
  | refl =>
    refine ⟨[], [], by simp, ?_, rfl⟩
    rw [eventsWith_of_replace (only_self target (top new))]
    simp
  | @head start child hchild hbelow ih =>
    obtain ⟨front, back, hevents, hwith, hafter⟩ := ih (hstart.tail hchild)
    have hget := getElem?_parts_of_mem_children hchild
    have hkeep := hstart.only_of_ne (hstart.trans (.head hchild hbelow))
      (ne_of_mem_children hchild hbelow) (top new)
    have hsplit := eventsWith_eq_append hkeep hchild fun other hmem below hwithin =>
      hstart.only_of_sibling hchild hbelow hmem hwithin (top new)
    have hdown : (Cursor.mk start.path start.offset).after (start.before child.index) =
        ⟨child.path, child.offset⟩ := by
      rw [after_before (hstart.laidOut hlaid) hget, path_eq_of_mem_children hchild]
      rfl
    refine ⟨start.before child.index ++ front, back ++ start.behind child.index, ?_, ?_, ?_⟩
    · rw [events_eq_append hget, Part.events, hevents]
      simp only [List.append_assoc]
    · rw [hsplit, hwith]
      simp only [List.append_assoc]
    · rw [Cursor.after_append, hdown, hafter]

/-- The renewed children of a node have the streams of its parts with replacements. -/
theorem childrenEvents_of_renews {parts : List Part} {children : List Child}
    (hall : List.Forall₂ (Renews origin rule position) parts children)
    (h : ∀ child, .node child ∈ parts → ∀ tree,
      child.renewed origin rule (position ++ [child.index]) = .ok tree →
        tree.events = child.eventsWith rule) :
    childrenEvents children = parts.flatMap (partEventsWith rule) := by
  induction hall with
  | nil => rfl
  | @cons part child parts children hrenews _ ih =>
    have hchild : child.events = partEventsWith rule part := by
      cases part with
      | leaf leaf =>
        obtain ⟨offset, rfl⟩ := hrenews
        rfl
      | node node =>
        obtain ⟨offset, tree, hok, rfl⟩ := hrenews
        exact h node (.head _) tree hok
    rw [childrenEvents_cons, List.flatMap_cons, hchild,
      ih fun child hmem => h child (.tail _ hmem)]

/-- **The stream of the new tree is the stream with replacements.** -/
theorem Transformable.events_eq (h : node.Transformable kept origin rule position)
    (hdistinct : Distinct kept origin) {tree : Tree}
    (hok : node.renewed origin rule position = .ok tree) :
    tree.events = node.eventsWith rule := by
  induction node using Node.induction generalizing position tree with
  | step node ih =>
    cases hanswer : rule node with
    | replace replacement =>
      rw [renewed_of_replace hanswer] at hok
      cases hok
      rw [eventsWith_of_replace hanswer]
    | keep =>
      obtain ⟨children, hall, -, hdraft⟩ := h.exists_renewed hdistinct hanswer hok
      have hkind : tree.kind = node.kind := congrArg Draft.kind hdraft
      have hchildren : tree.children = place 0 children := congrArg Draft.children hdraft
      have hevents := childrenEvents_of_renews hall fun child hmem tree hok => by
        have hchild := mem_children.2 hmem
        exact ih child hchild
          (h.of_mem_children hdistinct.closed hchild (path_eq_of_mem_children hchild)) hok
      rw [tree.events_eq, hkind, hchildren, childrenEvents_place, hevents,
        eventsWith_of_keep hanswer]

end Node

/-- A tree that is laid out can be built anew from its stream. -/
theorem Tree.LaidOut.exists_build {tree : Tree} (h : tree.LaidOut) (origin : Nat) :
    ∃ built, Builder.build origin tree.events = .ok (.top built) ∧ built.LaidOut ∧
      built.events = tree.events := by
  have hfits : streamSize tree.events < wordSize := by
    rw [h.streamSize_events]
    exact h.byteLen_lt
  obtain ⟨built, hbuild, hlaid, hevents⟩ := Builder.exists_build_eq_ok origin
    (nested_childrenEvents tree.children) (.inr tree.events_eq) hfits
  exact ⟨built, hbuild, hlaid, by rw [hevents, ← tree.events_eq]⟩

/-- **Transforming and building anew give trees that look the same.** A node of a run is transformed
by a rule that answers with nodes of the run; if no length overflows, a new builder takes the stream
with replacements, and its tree has the same dump as the result. -/
theorem Forest.Reachable.dump_transform_eq_dump_build {forest : Forest} (h : forest.Reachable)
    {node root : Node} (hnode : forest.Holds node) {rule : Node → Answer}
    (hanswers : forest.Answers node rule) {origin : Nat} (hfresh : origin ∉ forest.origins)
    (hok : (node.transform origin rule).result = .ok root) (other : Nat) :
    ∃ built, Builder.build other (node.eventsWith rule) = .ok built ∧ root.dump = built.dump := by
  rw [Node.result_transform] at hok
  obtain ⟨tree, hrenewed, hroot⟩ := bind_eq_ok_iff.1 hok
  cases hroot
  have hready := h.sound.transformable hnode hanswers origin
  have hdistinct := h.sound.distinct hfresh
  have hevents := hready.events_eq hdistinct hrenewed
  have hlaid := (hready.laidOut_madeBy hdistinct hrenewed).1
  obtain ⟨built, hbuild, hlaid', hevents'⟩ := hlaid.exists_build other
  rw [← hevents]
  exact ⟨.top built, hbuild, Node.dump_eq_of_events_eq hlaid hlaid' hevents'.symm⟩

/-- A variable is replaced by another one of the same tree, which is then shared. -/
theorem Forest.dump_sharing_eq_dump_build :
    (empty.add 0 dottedTree).Reachable ∧ (empty.add 0 dottedTree).Holds (.top dottedTree) ∧
    (empty.add 0 dottedTree).Answers (.top dottedTree) secondByFirst ∧
    1 ∉ (empty.add 0 dottedTree).origins ∧
    ((Node.top dottedTree).transform 1 secondByFirst).result = .ok (.top sharingTree) ∧
    ∃ built, Builder.build 2 ((Node.top dottedTree).eventsWith secondByFirst) = .ok built ∧
      (Node.top sharingTree).dump = built.dump := by
  have hfresh : 1 ∉ (empty.add 0 dottedTree).origins := by decide
  exact ⟨reachable_dotted, holds_dotted, answers_secondByFirst, hfresh, rfl,
    reachable_dotted.dump_transform_eq_dump_build holds_dotted answers_secondByFirst hfresh rfl 2⟩

end LosslessTree
