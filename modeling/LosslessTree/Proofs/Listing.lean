import LosslessTree.Proofs.Identity
import LosslessTree.Proofs.TextRanges
import LosslessTree.Proofs.Walk.Entered

/-!
# The listing of a subtree

The listing of a subtree names all its nodes and tokens in textual order, a node before what stands
below it. Everything of the subtree is listed, nothing is listed twice, the nodes come in the order
in which a walk enters them, and the tokens spell the text.

## Main definitions

* `Node.listed`: the portion of a listing that a part below a node contributes.
* `Node.tokenText`: the text of the tokens among some parts.

## Main results

* `Node.mem_allParts_iff`: everything of the subtree is listed, and nothing else.
* `Node.pairwise_path_allParts`: parts are listed in textual order.
* `Node.pairwise_allParts`: no part is listed twice.
* `Node.filterMap_node?_allParts`: the nodes are listed in the order of a walk.
* `Node.tokenText_allParts`: the tokens spell the text.
-/

namespace LosslessTree

namespace Node

variable {node : Node} {part : Part}

/-- What is listed of a part: its subtree, or the token itself. -/
def listed : Part → List Part :=
  Part.elim allParts fun leaf => [.leaf leaf]

theorem allParts_eq_cons (node : Node) :
    node.allParts = .node node :: node.parts.flatMap listed :=
  node.allParts_eq

/-- **Everything of the subtree is listed, and nothing else.** -/
theorem mem_allParts_iff : part ∈ node.allParts ↔ node.Reaches part := by
  induction node using Node.induction with
  | step node ih =>
    have hlisted {below : Part} (hbelow : below ∈ node.parts) (hpart : part ∈ listed below) :
        part ∈ node.allParts := by
      rw [allParts_eq_cons]
      exact .tail _ (List.mem_flatMap.2 ⟨below, hbelow, hpart⟩)
    constructor
    · intro hmem
      rw [allParts_eq_cons] at hmem
      rcases List.mem_cons.1 hmem with rfl | hbelow
      · exact Within.refl node
      · obtain ⟨below, hparts, hpart⟩ := List.mem_flatMap.1 hbelow
        cases below with
        | node child =>
          have hchild := mem_children.2 hparts
          exact (Within.of_mem_children hchild).reaches ((ih child hchild).1 hpart)
        | leaf leaf =>
          obtain rfl := List.mem_singleton.1 hpart
          exact reaches_of_mem_parts hparts
    · intro hreaches
      cases part with
      | node below =>
        rcases Within.eq_or_exists_child hreaches with rfl | ⟨child, hchild, hunder⟩
        · rw [allParts_eq_cons]
          exact .head _
        · exact hlisted (mem_children.1 hchild) ((ih child hchild).2 hunder)
      | leaf leaf =>
        obtain ⟨above, habove, hleaf⟩ := hreaches
        rcases habove.eq_or_exists_child with rfl | ⟨child, hchild, hunder⟩
        · exact hlisted hleaf (.head _)
        · exact hlisted (mem_children.1 hchild) ((ih child hchild).2 ⟨above, hunder, hleaf⟩)

/-! ### Textual order -/

theorem path_of_getElem?_parts {index : Nat} (h : node.parts[index]? = some part) :
    part.path = node.path ++ [index] := by
  rw [getElem?_parts] at h
  obtain ⟨child, -, rfl⟩ := Option.map_eq_some_iff.1 h
  cases child <;> rfl

/-- The path of what is listed of a part goes on from the path of the part. -/
theorem exists_path_eq_of_mem_listed {below : Part} (h : part ∈ listed below) :
    ∃ place, part.path = below.path ++ place := by
  cases below with
  | leaf leaf =>
    obtain rfl := List.mem_singleton.1 h
    exact ⟨[], (List.append_nil _).symm⟩
  | node top =>
    have hreaches := mem_allParts_iff.1 h
    cases part with
    | node below => exact Within.exists_path_eq hreaches
    | leaf leaf =>
      obtain ⟨above, habove, hleaf⟩ := hreaches
      obtain ⟨place, hplace⟩ := habove.exists_path_eq
      obtain ⟨hparent, -⟩ := parent_eq_of_mem_parts hleaf
      refine ⟨place ++ [leaf.index], ?_⟩
      rw [Part.path, Part.path, hparent, hplace, List.append_assoc]

/-- **Parts are listed in textual order**, a node before what stands below it: their paths become
greater. -/
theorem pairwise_path_allParts (node : Node) :
    node.allParts.Pairwise fun before after => before.path < after.path := by
  induction node using Node.induction with
  | step node ih =>
    have hwithin (below : Part) (hbelow : below ∈ node.parts) :
        (listed below).Pairwise fun before after => before.path < after.path := by
      cases below with
      | leaf leaf => exact List.pairwise_singleton _ _
      | node child => exact ih child (mem_children.2 hbelow)
    have hacross : node.parts.Pairwise fun front back => ∀ before ∈ listed front,
        ∀ after ∈ listed back, before.path < after.path := by
      refine List.pairwise_iff_getElem.2 fun i j hi hj hlt before hbefore after hafter => ?_
      obtain ⟨place, hplace⟩ := exists_path_eq_of_mem_listed hbefore
      obtain ⟨place', hplace'⟩ := exists_path_eq_of_mem_listed hafter
      rw [hplace, hplace', path_of_getElem?_parts (List.getElem?_eq_getElem hi),
        path_of_getElem?_parts (List.getElem?_eq_getElem hj), List.append_assoc,
        List.append_assoc]
      exact List.append_left_lt (List.cons_lt_cons_iff.2 (.inl hlt))
    rw [allParts_eq_cons, List.pairwise_cons]
    refine ⟨fun after hafter => ?_, List.pairwise_flatMap.2 ⟨hwithin, hacross⟩⟩
    obtain ⟨below, hbelow, hlisted⟩ := List.mem_flatMap.1 hafter
    obtain ⟨index, hindex⟩ := List.mem_iff_getElem?.1 hbelow
    obtain ⟨place, hplace⟩ := exists_path_eq_of_mem_listed hlisted
    have hmore : node.path ++ [] < node.path ++ index :: place :=
      List.append_left_lt (List.nil_lt_cons index place)
    rw [hplace, path_of_getElem?_parts hindex, List.append_assoc]
    rwa [List.append_nil] at hmore

theorem path_eq_of_part_beq {part other : Part} (h : (part == other) = true) :
    part.path = other.path := by
  cases part with
  | node node =>
    cases other with
    | node node' => exact path_eq_of_same h
    | leaf leaf' => cases h
  | leaf leaf =>
    cases other with
    | node node' => cases h
    | leaf leaf' =>
      obtain ⟨hfront, hparents⟩ := Bool.and_eq_true_iff.1 h
      have hindex := eq_of_beq (Bool.and_eq_true_iff.1 hfront).1
      rw [Part.path, Part.path, path_eq_of_same hparents, hindex]

/-- **No part is listed twice.** -/
theorem pairwise_allParts (node : Node) :
    node.allParts.Pairwise fun before after => (before == after) = false := by
  refine node.pairwise_path_allParts.imp fun {before after} hlt => ?_
  refine Bool.eq_false_iff.2 fun hsame => ?_
  rw [path_eq_of_part_beq hsame] at hlt
  exact List.lt_irrefl _ hlt

/-! ### Nodes and tokens -/

/-- **The nodes are listed in the order of a walk.** -/
theorem filterMap_node?_allParts (node : Node) :
    node.allParts.filterMap Part.node? = node.entered fun _ => false := by
  induction node using Node.induction with
  | step node ih =>
    have hbelow : (node.parts.flatMap listed).filterMap Part.node? =
        node.parts.flatMap (Part.elim (entered fun _ => false) fun _ => []) := by
      rw [List.filterMap_flatMap]
      refine List.flatMap_congr fun part hpart => ?_
      cases part with
      | leaf leaf => rfl
      | node child => exact ih child (mem_children.2 hpart)
    rw [entered_eq, if_neg Bool.false_ne_true, ← flatMap_parts, ← hbelow, allParts_eq_cons]
    rfl

/-- The text of a node is that of its parts, one after the other. -/
theorem text_eq_join (node : Node) : node.text = String.join (node.parts.map Part.text) := by
  have hparts (parts : List Part) : streamText (parts.flatMap Part.events) =
      String.join (parts.map Part.text) := by
    induction parts with
    | nil => rfl
    | cons part rest ih =>
      rw [List.flatMap_cons, streamText_append, part.streamText_events, ih, List.map_cons,
        String.join_cons]
  rw [text, ← streamText_events, events_eq_parts, streamText_append, ← List.singleton_append,
    streamText_append, hparts]
  simp [streamText, Event.text]

/-- The text of the tokens among some parts. -/
def tokenText (parts : List Part) : String :=
  String.join ((parts.filterMap Part.leaf?).map Leaf.fullText)

theorem tokenText_append (front back : List Part) :
    tokenText (front ++ back) = tokenText front ++ tokenText back := by
  simp [tokenText]

/-- **The tokens spell the text.** -/
theorem tokenText_allParts (node : Node) : tokenText node.allParts = node.text := by
  induction node using Node.induction with
  | step node ih =>
    have hlisted {part : Part} (hpart : part ∈ node.parts) :
        tokenText (listed part) = part.text := by
      cases part with
      | leaf leaf => simp [tokenText, listed, Part.elim, Part.leaf?, Part.text]
      | node child => exact ih child (mem_children.2 hpart)
    have hparts (parts : List Part) (hsub : parts ⊆ node.parts) :
        tokenText (parts.flatMap listed) = String.join (parts.map Part.text) := by
      induction parts with
      | nil => rfl
      | cons part rest ihrest =>
        rw [List.flatMap_cons, tokenText_append, hlisted (hsub (.head _)),
          ihrest (List.subset_of_cons_subset hsub), List.map_cons, String.join_cons]
    rw [allParts_eq_cons, text_eq_join, ← hparts node.parts (List.Subset.refl _)]
    rfl

end Node

end LosslessTree
