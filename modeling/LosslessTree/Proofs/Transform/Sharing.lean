import LosslessTree.Proofs.Transform.Order
import LosslessTree.Proofs.Transform.Provenance

/-!
# What a transformation shares

The new tree of a node that is kept is found at the place of the node in the result, and it is what
the transformation makes of that node alone. So for each node about which the rule was asked one can
tell what became of it by looking at what was asked below it: if nothing changes there, the old tree
of the node stands at its place, identity included; and if something changes, a tree stands there
that was never there before.

## Main definitions

* `Forest.Fresh`: a node of a result whose tree has an identity of its own.

## Main results

* `Node.Transformable.exists_at?`: the new tree of a node stands at its place in the result.
* `Node.mem_consulted_iff_of_asked`: what is asked about a node does not depend on where the
  transformation starts.
* `Forest.Reachable.transform_shares_unchanged`: what is shared, and what is fresh.
-/

namespace LosslessTree

namespace Node

variable {kept : Tree → Prop} {origin : Nat} {rule : Node → Answer} {node below : Node}
  {position : List Nat} {tree : Tree}

/-- A node that is kept has its old tree, or one with the identity of its place. -/
theorem eq_or_id_eq_of_keep (h : rule node = .keep)
    (hok : node.renewed origin rule position = .ok tree) :
    tree = node.tree ∨ tree.id = ⟨origin, position⟩ := by
  rw [renewed_of_keep h] at hok
  obtain ⟨copy, -, htree⟩ := bind_eq_ok_iff.1 hok
  cases htree
  cases copy with
  | none => exact .inl rfl
  | some draft => exact .inr rfl

/-- The new tree of a child of a node that is kept stands at its index in the new tree of the
node, wherever that stands. -/
theorem Transformable.exists_child (h : node.Transformable kept origin rule position)
    (hdistinct : Distinct kept origin) (hkeep : rule node = .keep)
    (hok : node.renewed origin rule position = .ok tree) {child here : Node}
    (hchild : child ∈ node.children) (hhere : here.tree = tree) :
    ∃ new ∈ here.children, new.index = child.index ∧
      child.renewed origin rule (position ++ [child.index]) = .ok new.tree := by
  obtain ⟨children, hall, -, hdraft⟩ := h.exists_renewed hdistinct hkeep hok
  obtain ⟨hlt, hpart⟩ := List.getElem?_eq_some_iff.1 (getElem?_parts_of_mem_children hchild)
  have hlt' : child.index < children.length := hall.length_eq ▸ hlt
  have hrenews := (List.forall₂_iff_get.1 hall).2 child.index hlt hlt'
  rw [List.get_eq_getElem, List.get_eq_getElem, hpart] at hrenews
  obtain ⟨offset, new, hnew, hget⟩ := hrenews
  have hplaced : here.tree.children = place 0 children := by
    rw [hhere]
    exact congrArg Draft.children hdraft
  have hmoved : here.tree.children[child.index]? =
      some (.node (0 + childrenSize (children.take child.index)) new) := by
    rw [hplaced, getElem?_place, List.getElem?_eq_getElem hlt', hget]
    rfl
  exact ⟨_, mem_children_iff.2 ⟨child.index, _, new, hmoved, rfl⟩, rfl, hnew⟩

/-- **The new tree of a node stands at its place in the result**: whatever node the rule was asked
about, following its path in the new tree leads to what the transformation makes of it. -/
theorem Transformable.exists_at? (h : node.Transformable kept origin rule position)
    (hdistinct : Distinct kept origin) (hok : node.renewed origin rule position = .ok tree)
    (hasked : below ∈ node.entered fun below => (rule below).replaces) {place : List Nat}
    (hpath : below.path = node.path ++ place) {here : Node} (hhere : here.tree = tree) :
    ∃ new, here.at? place = some new ∧
      below.renewed origin rule (position ++ place) = .ok new.tree := by
  induction node using Node.induction generalizing position tree place here with
  | step node ih =>
    rcases mem_entered_cases.1 hasked with rfl | ⟨hkeep, child, hchild, hbelow⟩
    · obtain rfl : place = [] := by simpa using hpath
      exact ⟨here, rfl, by simpa [hhere] using hok⟩
    · obtain ⟨rest, hrest⟩ := (within_of_mem_entered hbelow).exists_path_eq
      have hchildpath := path_eq_of_mem_children hchild
      obtain rfl : place = child.index :: rest := by
        rw [hrest, hchildpath] at hpath
        simpa [eq_comm] using hpath
      obtain ⟨new, hnew, hindex, hrenewed⟩ :=
        h.exists_child hdistinct (Answer.replaces_eq_false_iff.1 hkeep) hok hchild hhere
      obtain ⟨found, hfound, hok'⟩ := ih child hchild
        (h.of_mem_children hdistinct.closed hchild hchildpath) hrenewed hbelow hrest rfl
      refine ⟨found, ?_, by simpa using hok'⟩
      rw [← hindex, at?_cons_of_mem_children hnew]
      exact hfound

/-- What is asked about a node alone is what the whole transformation asks about it and below. -/
theorem mem_consulted_iff_of_asked {start : Node} {place : List Nat} {new : Tree}
    (hok : start.renewed origin rule position = .ok tree)
    (hasked : below ∈ start.entered fun below => (rule below).replaces)
    (hnew : below.renewed origin rule place = .ok new) {asked : Consultation} :
    asked ∈ below.consulted origin rule place ↔
      asked ∈ start.consulted origin rule position ∧ below.Within asked.node := by
  rw [consulted_eq hnew, consulted_eq hok, List.mem_map, List.mem_map]
  constructor
  · rintro ⟨other, hother, rfl⟩
    obtain ⟨hstart, hunder⟩ := (mem_entered_iff_of_mem hasked).1 hother
    exact ⟨⟨other, hstart, rfl⟩, hunder⟩
  · rintro ⟨⟨other, hother, rfl⟩, hunder⟩
    exact ⟨other, (mem_entered_iff_of_mem hasked).2 ⟨hother, hunder⟩, rfl⟩

/-- The new tree is the old one exactly if nothing changes. -/
theorem id_renewed_eq_iff (hold : ∀ below, node.Within below → below.tree.id.origin ≠ origin)
    (hok : node.renewed origin rule position = .ok tree) :
    tree.id = node.tree.id ↔ ∀ asked ∈ node.consulted origin rule position, ¬asked.Changes := by
  simpa using not_congr (id_renewed_ne_iff hold hok)

end Node

namespace Forest

/-- A node of the tree of `root` whose tree is in no tree of the forest, and at no other place below
`root`. -/
structure Fresh (forest : Forest) (root node : Node) : Prop where
  id_ne : ∀ {tree}, forest.Has tree → tree.id ≠ node.tree.id
  eq_of_id_eq : ∀ {other}, root.Within other → other.tree.id = node.tree.id → other = node

variable {forest : Forest}

/-- A tree of the result with the identity of its place is a fresh one. -/
theorem Sound.fresh (h : forest.Sound) {origin : Nat} (hfresh : origin ∉ forest.origins)
    {tree : Tree} (hmade : tree.MadeBy forest.Has ⟨origin, []⟩) {node : Node}
    (hnode : (Node.top tree).Within node) (hid : node.tree.id = ⟨origin, node.path⟩) :
    forest.Fresh (.top tree) node where
  id_ne hold heq := (h.distinct hfresh).fresh hold (congrArg Ident.origin (heq.trans hid))
  eq_of_id_eq {other} hother heq := by
    have hother' := hmade.of_within (h.distinct hfresh).closed hother
    rcases hother'.kept_or_id_eq with hold | hplace
    · exact absurd (congrArg Ident.origin (heq.trans hid)) ((h.distinct hfresh).fresh hold)
    · have hpath : other.path = node.path := by
        rw [hplace, hid] at heq
        simpa using heq
      exact hother.eq_of_path_eq hnode hpath

end Forest

/-- Without a replacement a transformation gives the tree of the node; this is the node itself
exactly if it is a root. -/
theorem Node.transform_keep (origin : Nat) (node : Node) :
    ∃ copy, (node.transform origin fun _ => .keep).result = .ok copy ∧
      ((copy == node) = true ↔ node.parent? = none) := by
  refine ⟨.top node.tree, ?_, ?_⟩
  · rw [result_transform, renewed_of_forall_keep fun _ _ => rfl]
    rfl
  · cases node with
    | top tree => exact ⟨fun _ => rfl, fun _ => (top tree).same_self⟩
    | inner parent index offset tree =>
      constructor
      · intro hsame
        cases hsame
      · intro hnone
        cases hnone

/-- **Transformations share what they do not change.** A node of a run is transformed by a rule that
answers with nodes of the run, and no length overflows. The result has the tree of the node,
identity included, exactly if every replacement that was answered has the tree of the node it
replaces. Of each node that the rule was asked about and that it keeps, the same holds at the place
of the node in the result: its own tree stands there if nothing below it changes, and a fresh one if
something does. So a transformation that keeps everything gives back the node itself exactly if the
node is a root. -/
theorem Forest.Reachable.transform_shares_unchanged {forest : Forest} (h : forest.Reachable)
    {node root : Node} (hnode : forest.Holds node) {rule : Node → Answer}
    (hanswers : forest.Answers node rule) {origin : Nat} (hfresh : origin ∉ forest.origins)
    (hok : (node.transform origin rule).result = .ok root) :
    (root.tree.id = node.tree.id ↔
      ∀ asked ∈ (node.transform origin rule).asked, ¬asked.Changes) ∧
    (∀ asked ∈ (node.transform origin rule).asked, asked.answer = .keep →
      ∃ place new, asked.node.path = node.path ++ place ∧ root.at? place = some new ∧
        ((∀ other ∈ (node.transform origin rule).asked, asked.node.Within other.node →
          ¬other.Changes) → new.tree.id = asked.node.tree.id) ∧
        ((∃ other ∈ (node.transform origin rule).asked, asked.node.Within other.node ∧
          other.Changes) → forest.Fresh root new)) ∧
    ∃ copy, (node.transform origin fun _ => .keep).result = .ok copy ∧
      ((copy == node) = true ↔ node.parent? = none) := by
  have hasked := Node.asked_transform_eq hok
  rw [Node.result_transform] at hok
  obtain ⟨tree, hrenewed, hroot⟩ := bind_eq_ok_iff.1 hok
  cases hroot
  have hready := h.sound.transformable hnode hanswers origin
  have hdistinct := h.sound.distinct hfresh
  have hold (below : Node) (hbelow : node.Within below) : below.tree.id.origin ≠ origin :=
    hdistinct.fresh (hnode.of_within hbelow).has
  rw [Node.asked_transform] at hasked ⊢
  refine ⟨?_, ?_, node.transform_keep origin⟩
  · exact Node.id_renewed_eq_iff hold hrenewed
  · intro asked hmem hkeep
    rw [hasked] at hmem
    obtain ⟨below, hentered, rfl⟩ := List.mem_map.1 hmem
    have hwithin := Node.within_of_mem_entered hentered
    obtain ⟨place, hpath⟩ := hwithin.exists_path_eq
    obtain ⟨new, hat, hnew⟩ :=
      hready.exists_at? hdistinct hrenewed hentered hpath (Node.tree_top tree)
    have hshared := Node.id_renewed_eq_iff (fun other hother => hold other (hwithin.trans hother))
      hnew
    simp only [Node.mem_consulted_iff_of_asked hrenewed hentered hnew, and_imp] at hshared
    obtain ⟨hin, hnewpath⟩ := Node.at?_eq_some_iff.1 hat
    refine ⟨place, new, hpath, hat, hshared.2, ?_⟩
    rintro ⟨other, hother, hunder, hchanges⟩
    have hne : new.tree.id ≠ below.tree.id := fun hid => hshared.1 hid other hother hunder hchanges
    have hid : new.tree.id = ⟨origin, new.path⟩ := by
      rcases Node.eq_or_id_eq_of_keep hkeep hnew with heq | hid
      · exact absurd (congrArg Tree.id heq) hne
      · simpa [hnewpath] using hid
    exact h.sound.fresh hfresh (hready.laidOut_madeBy hdistinct hrenewed).2 hin hid

namespace Forest

theorem answers_leftByRight :
    (empty.add 0 assignmentTree).Answers (.top assignmentTree) leftByRight := by
  intro below replacement _ hanswer
  simp only [leftByRight] at hanswer
  split_ifs at hanswer with hkind
  cases hanswer
  exact ⟨assignmentTree, .head _, .of_mem_children (.tail _ (.head _))⟩

/-- When the right-hand side of `x=y` is put in place of the left-hand side, the assignment is fresh
and the right-hand side is shared. -/
theorem mirrored_shares_rightSide :
    (empty.add 0 assignmentTree).Reachable ∧
    (empty.add 0 assignmentTree).Holds (.top assignmentTree) ∧
    (empty.add 0 assignmentTree).Answers (.top assignmentTree) leftByRight ∧
    1 ∉ (empty.add 0 assignmentTree).origins ∧
    ((Node.top assignmentTree).transform 1 leftByRight).result = .ok (.top mirroredTree) ∧
    (empty.add 0 assignmentTree).Fresh (.top mirroredTree) (.top mirroredTree) ∧
    ∃ new, (Node.top mirroredTree).at? [2] = some new ∧ new.tree.id = rightSide.tree.id := by
  have hholds : (empty.add 0 assignmentTree).Holds (.top assignmentTree) :=
    ⟨assignmentTree, .head _, .refl _⟩
  have hfresh : 1 ∉ (empty.add 0 assignmentTree).origins := by decide
  have hok : ((Node.top assignmentTree).transform 1 leftByRight).result =
      .ok (.top mirroredTree) := rfl
  have hasked : ((Node.top assignmentTree).transform 1 leftByRight).asked =
      [⟨.top assignmentTree, .keep⟩, ⟨leftSide, .replace rightSide⟩, ⟨rightSide, .keep⟩] := rfl
  obtain ⟨-, hshares, -⟩ := reachable_assignment.transform_shares_unchanged hholds
    answers_leftByRight hfresh hok
  rw [hasked] at hshares
  refine ⟨reachable_assignment, hholds, answers_leftByRight, hfresh, hok, ?_, ?_⟩
  · obtain ⟨place, new, hpath, hat, -, hnew⟩ := hshares _ (.head _) rfl
    obtain rfl : place = [] := hpath.symm
    cases hat
    refine hnew ⟨⟨leftSide, .replace rightSide⟩, .tail _ (.head _), .of_mem_children (.head _), ?_⟩
    exact ⟨rightSide, rfl, by decide⟩
  · obtain ⟨place, new, hpath, hat, hnew, -⟩ := hshares _ (.tail _ (.tail _ (.head _))) rfl
    obtain rfl : place = [2] := hpath.symm
    refine ⟨new, hat, hnew fun other hother hunder => ?_⟩
    rintro ⟨replacement, hanswer, -⟩
    rcases hother with _ | ⟨_, _ | ⟨_, _ | ⟨_, ⟨⟩⟩⟩⟩
    · cases hanswer
    · obtain ⟨rest, hrest⟩ := hunder.exists_path_eq
      cases hrest
    · cases hanswer

end Forest

end LosslessTree
