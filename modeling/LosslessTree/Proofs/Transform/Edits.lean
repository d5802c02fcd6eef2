import Mathlib.Data.List.Pairwise
import LosslessTree.Proofs.Faces
import LosslessTree.Proofs.Transform.Sharing

/-!
# Editing at several places

To edit a tree at a place is to put the tree of another node there. Several edits can be made by a
single transformation, whose rule finds all the places, or by one transformation after the other,
each of which finds its place in the tree that the one before has made. On the way offsets move,
nodes above are copied and trees are shared; but a path that no edit goes through, and that goes
through no edit, leads to what it led to before. So the result is the same, in whatever order the
edits are made.

The argument goes place by place: an edited tree has the faces of the replacement from the place of
an edit on, and the faces of the old tree everywhere else.

## Main definitions

* `Edit`, `Edit.Apart`: a replacement at a place, and places of which none leads through the other.
* `Node.replaceAll`, `Node.replaceInTurn`: edits made at once, and one after the other.
* `Edited`: what edits make of a tree, place by place.
* `Forest.Editable`: edits that can be made of a tree of a run.

## Main results

* `Node.Transformable.faceAt_eq_of_keep`, `Node.Transformable.faceAt_eq_of_replace`: the faces of
  the result of a transformation.
* `Edited.trans`: edits that are apart can be made one after the other.
* `Forest.Sound.edited_replaceAll`, `Forest.Sound.edited_replaceInTurn`: both ways make edited
  trees.
* `Forest.Reachable.dump_replaceAll_eq`: the results look the same.
-/

namespace LosslessTree

namespace Node

variable {kept : Tree → Prop} {origin : Nat} {rule : Node → Answer} {node : Node}
  {position : List Nat} {tree : Tree}

/-! ### The faces of a transformed tree -/

/-- Renewed children have the tokens of the old ones, and gaps at the same places. -/
theorem map_token?_of_renews {olds news : List Child} {index : Nat}
    (h : List.Forall₂ (Renews origin rule position) (node.partsFrom index olds) news) :
    news.map Child.token? = olds.map Child.token? := by
  induction olds generalizing index news with
  | nil =>
    cases h
    rfl
  | cons old olds ih =>
    rw [partsFrom_cons] at h
    cases h with
    | @cons _ new _ news hnew hrest =>
      have hfirst : new.token? = old.token? := by
        cases old with
        | token offset id token =>
          obtain ⟨_, rfl⟩ := hnew
          rfl
        | node offset sub =>
          obtain ⟨_, _, -, rfl⟩ := hnew
          rfl
      rw [List.map_cons, List.map_cons, hfirst, ih hrest]

namespace Transformable

/-- A node that is kept keeps its face. -/
theorem face_eq (h : node.Transformable kept origin rule position)
    (hdistinct : Distinct kept origin) (hkeep : rule node = .keep)
    (hok : node.renewed origin rule position = .ok tree) :
    tree.face = node.tree.face := by
  obtain ⟨children, hall, -, hdraft⟩ := h.exists_renewed hdistinct hkeep hok
  have hkind : tree.kind = node.tree.kind := congrArg Draft.kind hdraft
  have hchildren : tree.children = place 0 children := congrArg Draft.children hdraft
  rw [Tree.face, Tree.face, hkind, hchildren, map_token?_place, map_token?_of_renews hall]

/-- The step down: below a node that is kept stands the new tree of each child. -/
theorem faceAt_cons (h : node.Transformable kept origin rule position)
    (hdistinct : Distinct kept origin) (hkeep : rule node = .keep)
    (hok : node.renewed origin rule position = .ok tree) {child : Node}
    (hchild : child ∈ node.children) :
    ∃ new, child.renewed origin rule (position ++ [child.index]) = .ok new ∧
      child.Transformable kept origin rule (position ++ [child.index]) ∧
        ∀ rest, tree.faceAt (child.index :: rest) = new.faceAt rest := by
  obtain ⟨new, hnew, hindex, hrenewed⟩ :=
    h.exists_child hdistinct hkeep hok hchild (tree_top tree)
  obtain ⟨index, offset, sub, hget, rfl⟩ := mem_children_iff.1 hnew
  refine ⟨sub, hrenewed, ?_, fun rest => ?_⟩
  · exact h.of_mem_children hdistinct.closed hchild (path_eq_of_mem_children hchild)
  · rw [← hindex]
    exact Tree.faceAt_cons_of_node hget rest

/-- **Where all nodes on the way are kept**, the face is the old one. -/
theorem faceAt_eq_of_keep (h : node.Transformable kept origin rule position)
    (hdistinct : Distinct kept origin) (hok : node.renewed origin rule position = .ok tree)
    {place : List Nat}
    (hkeep : ∀ front below, front <+: place → node.at? front = some below → rule below = .keep) :
    tree.faceAt place = node.tree.faceAt place := by
  induction place generalizing node position tree with
  | nil => exact congrArg some (h.face_eq hdistinct (hkeep [] node List.nil_prefix rfl) hok)
  | cons index rest ih =>
    have hnode : rule node = .keep := hkeep [] node List.nil_prefix rfl
    have hface := h.face_eq hdistinct hnode hok
    by_cases hgap : node.tree.face.tokens[index]? = some none
    · obtain ⟨offset, sub, hget⟩ := Tree.getElem?_tokens_eq_iff.1 hgap
      have hchild := mem_children_iff.2 ⟨index, offset, sub, hget, rfl⟩
      obtain ⟨new, hrenewed, hready, hfaces⟩ := h.faceAt_cons hdistinct hnode hok hchild
      rw [Tree.faceAt_cons_of_node hget]
      refine (hfaces rest).trans (ih hready hrenewed fun front below hfront hat => ?_)
      refine hkeep (index :: front) below (List.cons_prefix_cons.2 ⟨rfl, hfront⟩) ?_
      rw [← hat]
      exact at?_cons_of_mem_children hchild front
    · rw [Tree.faceAt_cons_eq_none hgap, Tree.faceAt_cons_eq_none (hface ▸ hgap)]

/-- **From a node that is replaced on**, the faces are those of the replacement, provided that the
nodes above are kept. -/
theorem faceAt_eq_of_replace (h : node.Transformable kept origin rule position)
    (hdistinct : Distinct kept origin) (hok : node.renewed origin rule position = .ok tree)
    {front : List Nat} {target replacement : Node} (hat : node.at? front = some target)
    (hreplace : rule target = .replace replacement)
    (hkeep : ∀ place above, place <+: front → place ≠ front → node.at? place = some above →
      rule above = .keep) (back : List Nat) :
    tree.faceAt (front ++ back) = replacement.tree.faceAt back := by
  induction front generalizing node position tree with
  | nil =>
    cases hat
    rw [renewed_of_replace hreplace] at hok
    cases hok
    rfl
  | cons index rest ih =>
    have hnode : rule node = .keep := hkeep [] node List.nil_prefix (by simp) rfl
    obtain ⟨child, hget, hbelow⟩ : ∃ child, node.parts[index]? = some (.node child) ∧
        child.at? rest = some target := by
      rw [at?] at hat
      split at hat
      · exact ⟨_, ‹_›, hat⟩
      · cases hat
    have hchild := mem_children.2 (List.mem_of_getElem? hget)
    obtain ⟨_, _, -, rfl⟩ := exists_of_getElem?_parts hget
    obtain ⟨new, hrenewed, hready, hfaces⟩ := h.faceAt_cons hdistinct hnode hok hchild
    refine (hfaces (rest ++ back)).trans (ih hready hrenewed hbelow ?_)
    intro place above hplace hne habove
    refine hkeep (index :: place) above (List.cons_prefix_cons.2 ⟨rfl, hplace⟩)
      (by simpa using hne) ?_
    rw [← habove]
    exact at?_cons_of_mem_children hchild place

end Transformable

end Node

/-! ### Edits -/

/-- The tree of another node is to be put at a place. -/
structure Edit where
  /-- The child indices that lead to the place from the root. -/
  path : List Nat
  replacement : Node

/-- Of the places of two edits none leads through the other. -/
def Edit.Apart (edit other : Edit) : Prop :=
  ¬edit.path <+: other.path ∧ ¬other.path <+: edit.path

theorem Edit.Apart.symm {edit other : Edit} (h : edit.Apart other) : other.Apart edit :=
  ⟨h.2, h.1⟩

instance : Std.Symm Edit.Apart :=
  ⟨fun _ _ => Edit.Apart.symm⟩

/-- Of some edits that are apart, those whose places lead through one another are one. -/
theorem Edit.eq_of_pairwise {edits : List Edit} (h : edits.Pairwise Edit.Apart) {edit other : Edit}
    (hedit : edit ∈ edits) (hother : other ∈ edits) (hpath : edit.path <+: other.path) :
    edit = other := by
  by_contra hne
  exact (h.forall hedit hother hne).1 hpath

namespace Node

/-- The rule that replaces the nodes at the places of the edits, and keeps all others. -/
def replacing (root : Node) (edits : List Edit) (node : Node) : Answer :=
  match edits.find? fun edit => (root.at? edit.path).any (node == ·) with
  | some edit => .replace edit.replacement
  | none => .keep

/-- Makes all edits of a tree at once, as operation number `origin`. -/
def replaceAll (origin : Nat) (edits : List Edit) (root : Node) : Except Overflow Node :=
  (root.transform origin (root.replacing edits)).result

/-- Makes edits one after the other, each with the number of its operation, and each in the tree
that the one before has made. -/
def replaceInTurn (order : List (Nat × Edit)) (root : Node) : Except Overflow Node :=
  order.foldlM (fun root step => root.replaceAll step.1 [step.2]) root

end Node

/-- A rule that replaces the nodes of a tree at the places of the edits, and keeps all others. -/
structure Performs (rule : Node → Answer) (edits : List Edit) (tree : Tree) : Prop where
  replaces : ∀ {node edit}, (Node.top tree).Within node → edit ∈ edits → node.path = edit.path →
    rule node = .replace edit.replacement
  keeps : ∀ {node}, (Node.top tree).Within node → (∀ edit ∈ edits, node.path ≠ edit.path) →
    rule node = .keep

/-- What edits make of a tree: from the place of an edit on there are the faces of the replacement,
and everywhere else the faces of the old tree. -/
structure Edited (edits : List Edit) (old new : Tree) : Prop where
  replaced : ∀ {edit}, edit ∈ edits → ∀ rest,
    new.faceAt (edit.path ++ rest) = edit.replacement.tree.faceAt rest
  others : ∀ {place}, (∀ edit ∈ edits, ¬edit.path <+: place) → new.faceAt place = old.faceAt place

namespace Edited

variable {edits : List Edit} {old new : Tree}

/-- Edits determine all faces. -/
theorem faceAt_eq {other : Tree} (h : Edited edits old new) (hother : Edited edits old other)
    (place : List Nat) : new.faceAt place = other.faceAt place := by
  by_cases hedit : ∃ edit ∈ edits, edit.path <+: place
  · obtain ⟨edit, hmem, rest, rfl⟩ := hedit
    rw [h.replaced hmem, hother.replaced hmem]
  · push Not at hedit
    rw [h.others hedit, hother.others hedit]

theorem perm {others : List Edit} (h : Edited edits old new) (hperm : edits.Perm others) :
    Edited others old new where
  replaced hmem := h.replaced (hperm.mem_iff.2 hmem)
  others hnone := h.others fun edit hmem => hnone edit (hperm.mem_iff.1 hmem)

/-- **Edits that are apart can be made one after the other.** -/
theorem trans {edit : Edit} {mid : Tree} (h : Edited [edit] old mid) (hrest : Edited edits mid new)
    (hapart : ∀ other ∈ edits, edit.Apart other) : Edited (edit :: edits) old new where
  replaced {other} hother rest := by
    rcases List.mem_cons.1 hother with rfl | hmem
    · rw [hrest.others fun later hlater hpath => ?_, h.replaced (.head _)]
      have hboth : other.path <+: other.path ++ rest := List.prefix_append _ _
      rcases List.prefix_or_prefix_of_prefix hboth hpath with hle | hle
      · exact (hapart later hlater).1 hle
      · exact (hapart later hlater).2 hle
    · exact hrest.replaced hmem rest
  others {place} hnone := by
    rw [hrest.others fun later hlater => hnone later (.tail _ hlater),
      h.others fun other hother => ?_]
    obtain rfl := List.mem_singleton.1 hother
    exact hnone other (.head _)

/-- A path that is apart from the edits leads to a node as before. -/
theorem exists_at? {edit : Edit} (h : Edited edits old new)
    (hapart : ∀ other ∈ edits, other.Apart edit)
    (hat : ∃ target, (Node.top old).at? edit.path = some target) :
    ∃ target, (Node.top new).at? edit.path = some target := by
  rw [Node.exists_at?_iff] at hat ⊢
  rw [Node.tree_top, h.others fun other hother => (hapart other hother).1]
  exact hat

end Edited

namespace Node

variable {kept : Tree → Prop} {origin : Nat} {rule : Node → Answer} {edits : List Edit}
  {old new : Tree}

/-- **A transformation by a rule that performs edits makes an edited tree.** -/
theorem Transformable.edited (h : (top old).Transformable kept origin rule [])
    (hdistinct : Distinct kept origin) (hok : (top old).renewed origin rule [] = .ok new)
    (hrule : Performs rule edits old) (hapart : edits.Pairwise Edit.Apart)
    (hat : ∀ edit ∈ edits, ∃ target, (top old).at? edit.path = some target) :
    Edited edits old new where
  replaced {edit} hedit rest := by
    obtain ⟨target, htarget⟩ := hat edit hedit
    obtain ⟨hwithin, hpath⟩ := at?_eq_some_iff.1 htarget
    refine h.faceAt_eq_of_replace hdistinct hok htarget (hrule.replaces hwithin hedit hpath) ?_ rest
    intro place above hplace hne habove
    obtain ⟨hwithin', hpath'⟩ := at?_eq_some_iff.1 habove
    refine hrule.keeps hwithin' fun other hother heq => hne ?_
    have hsame : place = other.path := hpath'.symm.trans heq
    rw [hsame, Edit.eq_of_pairwise hapart hother hedit (hsame ▸ hplace)]
  others {place} hnone := by
    refine h.faceAt_eq_of_keep hdistinct hok fun front below hfront hbelow => ?_
    obtain ⟨hwithin, hpath⟩ := at?_eq_some_iff.1 hbelow
    refine hrule.keeps hwithin fun edit hedit heq => hnone edit hedit ?_
    rw [← heq, hpath]
    exact hfront

/-- In the tree of a root the rule finds the node at a place by its path. -/
theorem Within.any_at?_iff {node : Node} (h : (top old).Within node) {path : List Nat} :
    ((top old).at? path).any (node == ·) = true ↔ node.path = path := by
  rw [Option.any_eq_true]
  constructor
  · rintro ⟨target, hat, hsame⟩
    obtain ⟨htarget, hpath⟩ := at?_eq_some_iff.1 hat
    rw [(h.beq_iff_eq htarget).1 hsame]
    exact hpath
  · intro hpath
    exact ⟨node, at?_eq_some_iff.2 ⟨h, hpath⟩, node.same_self⟩

theorem performs_replacing (hapart : edits.Pairwise Edit.Apart) (old : Tree) :
    Performs ((top old).replacing edits) edits old where
  replaces {node edit} hnode hedit hpath := by
    rw [replacing]
    cases hfind : edits.find? fun edit => ((top old).at? edit.path).any (node == ·) with
    | none => exact absurd (hnode.any_at?_iff.2 hpath) (List.find?_eq_none.1 hfind edit hedit)
    | some found =>
      have hany := List.find?_some hfind
      have hfound := hnode.any_at?_iff.1 hany
      have hsame : found.path = edit.path := hfound.symm.trans hpath
      rw [Edit.eq_of_pairwise hapart (List.mem_of_find?_eq_some hfind) hedit
        (hsame ▸ List.prefix_rfl)]
  keeps {node} hnode hnone := by
    have hfound : edits.find? (fun edit => ((top old).at? edit.path).any (node == ·)) = none :=
      List.find?_eq_none.2 fun edit hedit hany => hnone edit hedit (hnode.any_at?_iff.1 hany)
    rw [replacing, hfound]

end Node

namespace Forest

variable {forest : Forest} {origin : Nat} {edits : List Edit} {tree : Tree} {root : Node}

/-- Different numbers for operations to come. -/
structure Unused (forest : Forest) (origins : List Nat) : Prop where
  nodup : origins.Nodup
  fresh : ∀ origin ∈ origins, origin ∉ forest.origins

theorem Unused.tail {rest : List Nat} (h : forest.Unused (origin :: rest)) (tree : Tree) :
    (forest.add origin tree).Unused rest where
  nodup := (List.nodup_cons.1 h.nodup).2
  fresh other hother hmem := by
    rcases List.mem_cons.1 hmem with rfl | hused
    · exact (List.nodup_cons.1 h.nodup).1 hother
    · exact h.fresh other (.tail _ hother) hused

/-- Edits that can be made of a tree of the forest: each place is that of a node, none leads through
another, and the replacements are nodes of the forest. -/
structure Editable (forest : Forest) (tree : Tree) (edits : List Edit) : Prop where
  mem : tree ∈ forest.trees
  found : ∀ edit ∈ edits, ∃ target, (Node.top tree).at? edit.path = some target
  apart : edits.Pairwise Edit.Apart
  holds : ∀ edit ∈ edits, forest.Holds edit.replacement

namespace Editable

theorem sublist {others : List Edit} (h : forest.Editable tree edits)
    (hsub : others.Sublist edits) : forest.Editable tree others where
  mem := h.mem
  found edit hedit := h.found edit (hsub.subset hedit)
  apart := h.apart.sublist hsub
  holds edit hedit := h.holds edit (hsub.subset hedit)

theorem perm {others : List Edit} (h : forest.Editable tree edits) (hperm : edits.Perm others) :
    forest.Editable tree others where
  mem := h.mem
  found edit hedit := h.found edit (hperm.mem_iff.2 hedit)
  apart := hperm.pairwise h.apart Edit.Apart.symm
  holds edit hedit := h.holds edit (hperm.mem_iff.2 hedit)

/-- After one edit the others can be made of the new tree. -/
theorem tail {edit : Edit} {new : Tree} (h : forest.Editable tree (edit :: edits))
    (hedited : Edited [edit] tree new) (origin : Nat) :
    (forest.add origin new).Editable new edits where
  mem := .head _
  found other hother := by
    refine hedited.exists_at? (fun first hfirst => ?_) (h.found other (.tail _ hother))
    obtain rfl := List.mem_singleton.1 hfirst
    exact (List.pairwise_cons.1 h.apart).1 other hother
  apart := (List.pairwise_cons.1 h.apart).2
  holds other hother := by
    obtain ⟨old, hold, hwithin⟩ := h.holds other (.tail _ hother)
    exact ⟨old, .tail _ hold, hwithin⟩

/-- The rule of the edits answers with nodes of the forest. -/
theorem answers_replacing (h : forest.Editable tree edits) (node root : Node) :
    forest.Answers node (root.replacing edits) := by
  intro below replacement _ hanswer
  rw [Node.replacing] at hanswer
  split at hanswer
  · rename_i edit hfind
    cases hanswer
    exact h.holds edit (List.mem_of_find?_eq_some hfind)
  · cases hanswer

end Editable

/-- **Edits made at once** make an edited tree. -/
theorem Sound.edited_replaceAll (h : forest.Sound) (hedits : forest.Editable tree edits)
    (hfresh : origin ∉ forest.origins)
    (hok : (Node.top tree).replaceAll origin edits = .ok root) :
    ∃ new, root = .top new ∧ (forest.add origin new).Sound ∧ Edited edits tree new := by
  have hnode : forest.Holds (.top tree) := ⟨tree, hedits.mem, .refl _⟩
  have hanswers := hedits.answers_replacing (.top tree) (.top tree)
  have hsound := h.step (.transform hfresh hnode hanswers hok)
  rw [Node.replaceAll, Node.result_transform] at hok
  obtain ⟨new, hrenewed, hroot⟩ := bind_eq_ok_iff.1 hok
  cases hroot
  have hready := h.transformable hnode hanswers origin
  have hrule := Node.performs_replacing hedits.apart tree
  exact ⟨new, rfl, hsound,
    hready.edited (h.distinct hfresh) hrenewed hrule hedits.apart hedits.found⟩

/-- **Edits made one after the other** make an edited tree. -/
theorem Sound.edited_replaceInTurn {order : List (Nat × Edit)} (h : forest.Sound)
    (hedits : forest.Editable tree (order.map Prod.snd))
    (hunused : forest.Unused (order.map Prod.fst))
    (hok : (Node.top tree).replaceInTurn order = .ok root) :
    ∃ new, root = .top new ∧ new.LaidOut ∧ Edited (order.map Prod.snd) tree new := by
  induction order generalizing forest tree with
  | nil =>
    cases hok
    exact ⟨tree, rfl, h.laidOut hedits.mem, ⟨by rintro _ ⟨⟩, fun _ => rfl⟩⟩
  | cons step rest ih =>
    rw [Node.replaceInTurn, List.foldlM_cons] at hok
    obtain ⟨mid, hmid, hrest⟩ := bind_eq_ok_iff.1 hok
    have hfirst : forest.Editable tree [step.2] :=
      hedits.sublist (.cons_cons _ (List.nil_sublist _))
    obtain ⟨first, rfl, hsound, hedited⟩ :=
      h.edited_replaceAll hfirst (hunused.fresh step.1 (.head _)) hmid
    obtain ⟨new, rfl, hlaid, hlater⟩ :=
      ih hsound (hedits.tail hedited step.1) (hunused.tail first) hrest
    exact ⟨new, rfl, hlaid, hedited.trans hlater (List.pairwise_cons.1 hedits.apart).1⟩

/-- **The order of edits does not matter, nor whether they are made at once.** Edits of a tree of a
run, at places of which none leads through another, with nodes of the run as replacements, are made
by one transformation, or one after the other in any order. Each step of the latter finds its place,
and if no length overflows the two results have the same dump. -/
theorem Reachable.dump_replaceAll_eq (h : forest.Reachable) (hedits : forest.Editable tree edits)
    (hfresh : origin ∉ forest.origins)
    (hok : (Node.top tree).replaceAll origin edits = .ok root) {order : List (Nat × Edit)}
    (hperm : (order.map Prod.snd).Perm edits) (hunused : forest.Unused (order.map Prod.fst)) :
    (∀ before step after mid, order = before ++ step :: after →
      (Node.top tree).replaceInTurn before = .ok mid →
        ∃ target, mid.at? step.2.path = some target) ∧
    ∀ last, (Node.top tree).replaceInTurn order = .ok last → root.dump = last.dump := by
  have horder := hedits.perm hperm.symm
  constructor
  · rintro before step after mid rfl hmid
    rw [List.map_append, List.map_cons] at horder hunused
    have hearlier := horder.sublist (List.sublist_append_left _ _)
    have hunused' : forest.Unused (before.map Prod.fst) :=
      ⟨(List.nodup_append.1 hunused.nodup).1,
        fun other hother => hunused.fresh other (List.mem_append_left _ hother)⟩
    obtain ⟨new, rfl, -, hedited⟩ := h.sound.edited_replaceInTurn hearlier hunused' hmid
    have hapart := (List.pairwise_append.1 horder.apart).2.2
    exact hedited.exists_at? (fun other hother => hapart other hother step.2 (.head _))
      (horder.found step.2 (List.mem_append_right _ (.head _)))
  · intro last hlast
    obtain ⟨new, rfl, hsound, hedited⟩ := h.sound.edited_replaceAll hedits hfresh hok
    obtain ⟨other, rfl, hlaid, hedited'⟩ := h.sound.edited_replaceInTurn horder hunused hlast
    exact Node.dump_eq_of_faceAt_eq (hsound.laidOut (.head _)) hlaid
      (hedited.faceAt_eq (hedited'.perm hperm))

/-- The edit that puts the second variable of `ü .x` in place of the first one. -/
def exchangeFirst : Edit :=
  ⟨[0], .inner (.top dottedTree) 2 4
    ⟨⟨0, [2]⟩, .identifierVariable, 1, [.token 0 ⟨0, [2, 0]⟩ (.identifier "x")]⟩⟩

/-- The edit that puts the first variable of `ü .x` in place of the second one. -/
def exchangeSecond : Edit :=
  ⟨[2], .inner (.top dottedTree) 0 0 variableTree⟩

theorem editable_exchange :
    (empty.add 0 dottedTree).Editable dottedTree [exchangeFirst, exchangeSecond] where
  mem := .head _
  found := by
    rintro _ (_ | ⟨_, _ | ⟨_, ⟨⟩⟩⟩)
    · exact ⟨_, rfl⟩
    · exact ⟨_, rfl⟩
  apart := by
    refine .cons ?_ (List.pairwise_singleton _ _)
    rintro _ (_ | ⟨_, ⟨⟩⟩)
    exact ⟨by decide, by decide⟩
  holds := by
    rintro _ (_ | ⟨_, _ | ⟨_, ⟨⟩⟩⟩)
    · exact holds_dotted.of_within (.of_mem_children (.tail _ (.head _)))
    · exact holds_dotted.of_within (.of_mem_children (.head _))

/-- The variables of `ü .x` are exchanged, at once or from the back to the front. -/
theorem dump_exchange_dotted :
    (empty.add 0 dottedTree).Reachable ∧
    (empty.add 0 dottedTree).Editable dottedTree [exchangeFirst, exchangeSecond] ∧
    1 ∉ (empty.add 0 dottedTree).origins ∧ (empty.add 0 dottedTree).Unused [2, 3] ∧
    ∃ root last, (Node.top dottedTree).replaceAll 1 [exchangeFirst, exchangeSecond] = .ok root ∧
      (Node.top dottedTree).replaceInTurn [(2, exchangeSecond), (3, exchangeFirst)] = .ok last ∧
      root.text = "x.ü " ∧ root.dump = last.dump := by
  have hfresh : 1 ∉ (empty.add 0 dottedTree).origins := by decide
  have hunused : (empty.add 0 dottedTree).Unused [2, 3] := ⟨by decide, by decide⟩
  have hperm : ([(2, exchangeSecond), (3, exchangeFirst)].map Prod.snd).Perm
      [exchangeFirst, exchangeSecond] :=
    .swap _ _ _
  obtain ⟨-, hdump⟩ := reachable_dotted.dump_replaceAll_eq editable_exchange hfresh rfl hperm
    hunused
  exact ⟨reachable_dotted, editable_exchange, hfresh, hunused, _, _, rfl, rfl, rfl, hdump _ rfl⟩

end Forest

end LosslessTree
