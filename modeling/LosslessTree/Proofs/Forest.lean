import LosslessTree.Proofs.Builder.Identity
import LosslessTree.Proofs.Rename.Copy

/-!
# The trees of a run

A run makes one tree after the other, by building, by transforming a node of a tree that is there,
and by renaming an element. Trees are never changed, so the trees that are there only become more.
Each operation has a number of its own, and a rule may answer with any node of any tree that is
there, also of the tree that is being transformed.

All that holds of the trees of a run follows from one invariant: they are laid out, and identities
tell them apart.

## Main definitions

* `Forest`: the trees that a run has made so far, and the numbers that were used.
* `Forest.Holds`, `Forest.Has`: the nodes that can be reached, and their trees.
* `Forest.Step`, `Forest.Reachable`: one operation, and the forests of all runs.
* `Forest.Sound`: the invariant.

## Main results

* `Forest.Sound.step`: every operation keeps a forest sound.
* `Forest.Reachable.sound`: the forest of every run is sound.
-/

namespace LosslessTree

/-- The trees that a run has made so far, and the numbers of its operations. -/
structure Forest where
  origins : List Nat
  trees : List Tree

namespace Forest

/-- The forest before the first operation. -/
def empty : Forest :=
  ⟨[], []⟩

/-- The forest with the tree that operation number `origin` has made. -/
def add (forest : Forest) (origin : Nat) (tree : Tree) : Forest :=
  ⟨origin :: forest.origins, tree :: forest.trees⟩

/-- The node stands in one of the trees. -/
def Holds (forest : Forest) (node : Node) : Prop :=
  ∃ tree ∈ forest.trees, (Node.top tree).Within node

/-- The tree stands somewhere in one of the trees. -/
def Has (forest : Forest) (tree : Tree) : Prop :=
  ∃ node, forest.Holds node ∧ node.tree = tree

/-- A rule that replaces nodes below `node` by nodes of the forest only. -/
def Answers (forest : Forest) (node : Node) (rule : Node → Answer) : Prop :=
  ∀ below replacement, node.Within below → rule below = .replace replacement →
    forest.Holds replacement

/-- One operation that makes a tree, under a number that was not used before. -/
inductive Step (forest : Forest) : Forest → Prop
  /-- A tree is built from any events, whether a builder takes all of them or not. -/
  | build {origin : Nat} {events : List Event} {root : Node} (fresh : origin ∉ forest.origins)
      (ok : ((Builder.new origin).offer events).finish = .ok root) :
      forest.Step (forest.add origin root.tree)
  /-- A node of the forest is transformed by a rule. -/
  | transform {origin : Nat} {rule : Node → Answer} {node root : Node}
      (fresh : origin ∉ forest.origins) (holds : forest.Holds node)
      (answers : forest.Answers node rule) (ok : (node.transform origin rule).result = .ok root) :
      forest.Step (forest.add origin root.tree)
  /-- An element of the forest is renamed. -/
  | rename {origin : Nat} {newName : String} {named : Named} {outcome : Outcome Node} {root : Node}
      (fresh : origin ∉ forest.origins) (holds : forest.Holds named.raw)
      (renames : named.rename origin newName = some outcome) (ok : outcome.result = .ok root) :
      forest.Step (forest.add origin root.tree)

/-- The forests of all runs. -/
inductive Reachable : Forest → Prop
  | empty : Reachable empty
  | step {forest next : Forest} (h : Reachable forest) (hstep : forest.Step next) : Reachable next

/-- The trees of a forest are laid out, their origins are known, and their identities tell them
apart, at all depths. -/
structure Sound (forest : Forest) : Prop where
  laidOut : ∀ {tree}, tree ∈ forest.trees → tree.LaidOut
  origin_mem : ∀ {tree}, forest.Has tree → tree.id.origin ∈ forest.origins
  eq_of_id_eq : ∀ {tree other : Tree}, forest.Has tree → forest.Has other → tree.id = other.id →
    tree = other

variable {forest next : Forest} {node : Node} {origin : Nat}

theorem Holds.has (h : forest.Holds node) : forest.Has node.tree :=
  ⟨node, h, rfl⟩

theorem Holds.of_within {below : Node} (h : forest.Holds node) (hbelow : node.Within below) :
    forest.Holds below := by
  obtain ⟨tree, htree, hnode⟩ := h
  exact ⟨tree, htree, hnode.trans hbelow⟩

/-- A node that could be reached before an operation can be reached after it. -/
theorem Holds.add (h : forest.Holds node) (origin : Nat) (tree : Tree) :
    (forest.add origin tree).Holds node := by
  obtain ⟨top, htop, hwithin⟩ := h
  exact ⟨top, .tail _ htop, hwithin⟩

/-- The root of a node of the forest is the tree in which it was found. -/
theorem Holds.exists_root_eq (h : forest.Holds node) :
    ∃ tree ∈ forest.trees, node.root = .top tree ∧ (Node.top tree).Within node := by
  obtain ⟨tree, htree, hnode⟩ := h
  exact ⟨tree, htree, hnode.root_eq, hnode⟩

theorem has_of_mem {tree : Tree} (h : tree ∈ forest.trees) : forest.Has tree :=
  ⟨.top tree, ⟨tree, h, .refl _⟩, rfl⟩

/-- What can be reached after an operation is new or could be reached before. -/
theorem exists_of_has_add {new tree : Tree} (h : (forest.add origin new).Has tree) :
    (∃ node, (Node.top new).Within node ∧ node.tree = tree) ∨ forest.Has tree := by
  obtain ⟨node, ⟨top, htop, hnode⟩, rfl⟩ := h
  rcases List.mem_cons.1 htop with rfl | hmem
  · exact .inl ⟨node, hnode, rfl⟩
  · exact .inr ⟨node, ⟨top, hmem, hnode⟩, rfl⟩

namespace Sound

theorem laidOut_of_holds (h : forest.Sound) (hnode : forest.Holds node) : node.tree.LaidOut := by
  obtain ⟨tree, htree, hwithin⟩ := hnode
  exact hwithin.laidOut (h.laidOut htree)

/-- A sound forest is ready for an operation with a new number. -/
theorem distinct (h : forest.Sound) (hfresh : origin ∉ forest.origins) :
    Distinct forest.Has origin where
  closed := by
    rintro _ offset sub ⟨node, hnode, rfl⟩ hmem
    obtain ⟨index, hget⟩ := List.mem_iff_getElem?.1 hmem
    have hchild := Node.mem_children_iff.2 ⟨index, offset, sub, hget, rfl⟩
    exact (hnode.of_within (.of_mem_children hchild)).has
  eq_of_id_eq := h.eq_of_id_eq
  fresh htree horigin := hfresh (horigin ▸ h.origin_mem htree)

/-- **A tree that comes from an operation keeps the forest sound.** -/
theorem add (h : forest.Sound) (hfresh : origin ∉ forest.origins) {tree : Tree}
    (hlaid : tree.LaidOut) (hmade : tree.MadeBy forest.Has ⟨origin, []⟩) :
    (forest.add origin tree).Sound := by
  have hdistinct := h.distinct hfresh
  have hbelow {node : Node} (hnode : (Node.top tree).Within node) :=
    hmade.of_within hdistinct.closed hnode
  refine ⟨fun hmem => ?_, fun hhas => ?_, fun hhas hother hid => ?_⟩
  · rcases List.mem_cons.1 hmem with rfl | hmem
    · exact hlaid
    · exact h.laidOut hmem
  · rcases exists_of_has_add hhas with ⟨node, hnode, rfl⟩ | hold
    · rcases (hbelow hnode).kept_or_id_eq with hold | hid
      · exact .tail _ (h.origin_mem hold)
      · rw [hid]
        exact .head _
    · exact .tail _ (h.origin_mem hold)
  · rcases exists_of_has_add hhas with ⟨node, hnode, rfl⟩ | hold
    · rcases exists_of_has_add hother with ⟨other, hwithin, rfl⟩ | hold
      · exact hdistinct.eq_of_within hmade hnode hwithin hid
      · exact hdistinct.eq_of_madeBy (hbelow hnode) hold hid
    · rcases exists_of_has_add hother with ⟨other, hwithin, rfl⟩ | hold'
      · exact (hdistinct.eq_of_madeBy (hbelow hwithin) hold hid.symm).symm
      · exact h.eq_of_id_eq hold hold' hid

/-- A node of the forest can be transformed by a rule that answers with nodes of the forest. -/
theorem transformable (h : forest.Sound) (hnode : forest.Holds node) {rule : Node → Answer}
    (hanswers : forest.Answers node rule) (origin : Nat) :
    node.Transformable forest.Has origin rule [] where
  old := hnode.has
  laidOut := h.laidOut_of_holds hnode
  replaces below replacement place hbelow _ hanswer := by
    have hreplacement := hanswers below replacement hbelow hanswer
    exact ⟨h.laidOut_of_holds hreplacement, .keep hreplacement.has⟩

/-- An element of the forest can be replaced by its copy with another token. -/
theorem transformable_only (h : forest.Sound) (hfresh : origin ∉ forest.origins)
    (hnode : forest.Holds node) {index : Nat} {token : Token} {renamed : Tree}
    (hcopy : node.withToken origin index token = .ok renamed) :
    node.root.Transformable forest.Has origin (Node.only node (.top renamed)) [] := by
  have hlaid := h.laidOut_of_holds hnode
  have hyields := Node.yields_withToken hlaid origin index token
  obtain rfl := hyields.eq_of_eq_ok hcopy
  obtain ⟨tree, htree, hroot, hwithin⟩ := hnode.exists_root_eq
  rw [hroot]
  exact .only (has_of_mem htree) (h.laidOut htree) hwithin
    (Node.laidOut_treeWith hlaid (hyields.of_eq_ok hcopy))
    (Node.madeBy_treeWith (h.distinct hfresh).closed hnode.has ..)

/-- **Every operation keeps a forest sound.** -/
theorem step (h : forest.Sound) (hstep : forest.Step next) : next.Sound := by
  cases hstep with
  | build hfresh hok =>
    obtain ⟨tree, rfl, hlaid, hmade⟩ := Builder.laidOut_madeBy_of_finish hok
    exact h.add hfresh hlaid hmade
  | @transform origin rule node root hfresh hnode hanswers hok =>
    rw [Node.result_transform] at hok
    obtain ⟨tree, hrenewed, hroot⟩ := bind_eq_ok_iff.1 hok
    cases hroot
    have hready := h.transformable hnode hanswers origin
    obtain ⟨hlaid, hmade⟩ := hready.laidOut_madeBy (h.distinct hfresh) hrenewed
    exact h.add hfresh hlaid hmade
  | rename hfresh hnode hrename hok =>
    obtain ⟨leaf, renamed, tree, -, hcopy, hrenewed, rfl⟩ := Named.exists_of_rename hrename hok
    have hready := h.transformable_only hfresh hnode hcopy
    obtain ⟨hlaid, hmade⟩ := hready.laidOut_madeBy (h.distinct hfresh) hrenewed
    exact h.add hfresh hlaid hmade

end Sound

theorem sound_empty : empty.Sound :=
  ⟨by rintro _ ⟨⟩, by rintro _ ⟨_, ⟨_, ⟨⟩, _⟩, _⟩, by rintro _ _ ⟨_, ⟨_, ⟨⟩, _⟩, _⟩⟩

/-- **The forest of every run is sound.** -/
theorem Reachable.sound (h : forest.Reachable) : forest.Sound := by
  induction h with
  | empty => exact sound_empty
  | step _ hstep ih => exact ih.step hstep

/-! ### A small run -/

/-- A run may begin by building a tree. -/
theorem reachable_of_build {tree : Tree}
    (hok : ((Builder.new 0).offer tree.events).finish = .ok (.top tree)) :
    (empty.add 0 tree).Reachable :=
  Reachable.empty.step (.build List.not_mem_nil hok)

theorem holds_top (forest : Forest) (origin : Nat) (tree : Tree) :
    (forest.add origin tree).Holds (.top tree) :=
  ⟨tree, .head _, .refl _⟩

/-- The tree of a variable, with a space behind its name. -/
def variableTree : Tree :=
  ⟨⟨0, [0]⟩, .identifierVariable, 3,
    [.token 0 ⟨0, [0, 0]⟩ ((Token.identifier "ü").withTrailing ⟨[.spaces 1]⟩)]⟩

/-- The tree of `ü .x`. -/
def dottedTree : Tree :=
  ⟨⟨0, []⟩, .lvalue, 5,
    [.node 0 variableTree, .token 3 ⟨0, [1]⟩ (.punctuation .dot),
      .node 4 ⟨⟨0, [2]⟩, .identifierVariable, 1, [.token 0 ⟨0, [2, 0]⟩ (.identifier "x")]⟩]⟩

/-- The tree of `ü .ü `, in which one tree stands at two places. -/
def sharingTree : Tree :=
  ⟨⟨1, []⟩, .lvalue, 7,
    [.node 0 variableTree, .token 3 ⟨0, [1]⟩ (.punctuation .dot), .node 4 variableTree]⟩

/-- The rule that replaces the second variable of `ü .x` by the first one. -/
def secondByFirst (node : Node) : Answer :=
  if node.path = [2] then .replace (.inner (.top dottedTree) 0 0 variableTree) else .keep

theorem reachable_dotted : (empty.add 0 dottedTree).Reachable :=
  reachable_of_build rfl

theorem holds_dotted : (empty.add 0 dottedTree).Holds (.top dottedTree) :=
  holds_top empty 0 dottedTree

theorem answers_secondByFirst :
    (empty.add 0 dottedTree).Answers (.top dottedTree) secondByFirst := by
  intro below replacement _ hanswer
  simp only [secondByFirst] at hanswer
  split_ifs at hanswer with hpath
  cases hanswer
  exact holds_dotted.of_within (.of_mem_children (.head _))

theorem reachable_sharing : ((empty.add 0 dottedTree).add 1 sharingTree).Reachable := by
  have hok : ((Node.top dottedTree).transform 1 secondByFirst).result = .ok (.top sharingTree) :=
    rfl
  exact reachable_dotted.step
    (.transform (by decide) holds_dotted answers_secondByFirst hok)

end Forest

end LosslessTree
