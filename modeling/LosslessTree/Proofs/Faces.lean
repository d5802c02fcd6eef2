import LosslessTree.Proofs.Dump
import LosslessTree.Proofs.Navigation

/-!
# Trees face by face

The face of a node is what is seen of the node alone: its kind and the tokens directly below it,
with a gap for each node. Following a path down from the top one comes to a face or to nothing. So a
tree can be told place by place, and whoever wants to know that two trees look the same can compare
their faces at each place. Offsets and lengths need not be looked at: in a tree that is laid out
they follow.

## Main definitions

* `Face`, `Tree.face`: what is seen of a node alone.
* `Tree.at?`, `Tree.faceAt`: the tree to which child indices lead, and its face.

## Main results

* `Node.map_tree_at?`: in place or not, a path leads to the same tree.
* `Node.events_eq_of_faceAt_eq`: faces tell the stream of a tree.
* `Node.dump_eq_of_faceAt_eq`: trees with the same faces look the same.
-/

namespace LosslessTree

/-- What is seen of a node alone: its kind, and for each child the token, if it is one. -/
structure Face where
  kind : NodeKind
  tokens : List (Option Token)
  deriving DecidableEq, Repr

/-- The token, if a child is one. -/
def Child.token? : Child → Option Token
  | token _ _ t => some t
  | node _ _ => none

@[simp] theorem Child.token?_moveTo (start : Nat) (child : Child) :
    (child.moveTo start).token? = child.token? := by
  cases child <;> rfl

theorem map_token?_place (start : Nat) (children : List Child) :
    (place start children).map Child.token? = children.map Child.token? := by
  induction children generalizing start with
  | nil => rfl
  | cons child rest ih => rw [place, List.map_cons, List.map_cons, ih, Child.token?_moveTo]

namespace Tree

variable {tree other : Tree}

/-- The face of the top of a tree. -/
def face (tree : Tree) : Face :=
  ⟨tree.kind, tree.children.map Child.token?⟩

/-- The tree to which child indices lead from the top of a tree, tokens counted. -/
def at? : Tree → List Nat → Option Tree
  | tree, [] => some tree
  | tree, index :: rest =>
    match tree.children[index]? with
    | some (.node _ sub) => sub.at? rest
    | _ => none

/-- The face at a place of a tree. -/
def faceAt (tree : Tree) (place : List Nat) : Option Face :=
  (tree.at? place).map face

theorem at?_append (tree : Tree) (front back : List Nat) :
    tree.at? (front ++ back) = (tree.at? front).bind fun sub => sub.at? back := by
  induction front generalizing tree with
  | nil => rfl
  | cons index rest ih =>
    rw [List.cons_append, at?, at?]
    split
    · exact ih _
    · rfl

/-- What stands below a place is told by the tree that stands there. -/
theorem faceAt_append {front : List Nat} {sub : Tree} (h : tree.at? front = some sub)
    (back : List Nat) : tree.faceAt (front ++ back) = sub.faceAt back := by
  rw [faceAt, at?_append, h]
  rfl

theorem faceAt_cons_of_node {index offset : Nat} {sub : Tree}
    (h : tree.children[index]? = some (.node offset sub)) (rest : List Nat) :
    tree.faceAt (index :: rest) = sub.faceAt rest := by
  rw [faceAt, at?, h]
  rfl

/-- A child is a node exactly if the face has a gap there. -/
theorem getElem?_tokens_eq_iff {index : Nat} :
    tree.face.tokens[index]? = some none ↔
      ∃ offset sub, tree.children[index]? = some (.node offset sub) := by
  rw [face, List.getElem?_map, Option.map_eq_some_iff]
  constructor
  · rintro ⟨_ | ⟨offset, sub⟩, hchild, hnode⟩
    · cases hnode
    · exact ⟨offset, sub, hchild⟩
  · rintro ⟨offset, sub, hchild⟩
    exact ⟨_, hchild, rfl⟩

/-- Where a face has no gap the way ends. -/
theorem faceAt_cons_eq_none {index : Nat} (h : tree.face.tokens[index]? ≠ some none)
    (rest : List Nat) : tree.faceAt (index :: rest) = none := by
  rw [faceAt, at?]
  split
  · rename_i offset sub hchild
    exact absurd (getElem?_tokens_eq_iff.2 ⟨offset, sub, hchild⟩) h
  · rfl

/-! ### Faces and streams -/

/-- The streams of children with the same tokens, and with nodes of the same streams between
them. -/
theorem childrenEvents_eq_of_map_token?_eq {children others : List Child}
    (htokens : children.map Child.token? = others.map Child.token?)
    (h : ∀ (index offset offset' : Nat) (sub sub' : Tree),
      children[index]? = some (.node offset sub) → others[index]? = some (.node offset' sub') →
        sub.events = sub'.events) :
    childrenEvents children = childrenEvents others := by
  induction children generalizing others with
  | nil =>
    cases others with
    | nil => rfl
    | cons child others => cases htokens
  | cons child children ih =>
    cases others with
    | nil => cases htokens
    | cons child' others =>
      obtain ⟨hhead, htail⟩ := List.cons_eq_cons.1 htokens
      have hrest := ih htail fun index => h (index + 1)
      have hfirst : child.events = child'.events := by
        cases child with
        | token offset id token =>
          cases child' with
          | token offset' id' token' =>
            cases hhead
            rfl
          | node offset' sub' => cases hhead
        | node offset sub =>
          cases child' with
          | token offset' id' token' => cases hhead
          | node offset' sub' => exact h 0 offset offset' sub sub' rfl rfl
      rw [childrenEvents_cons, childrenEvents_cons, hfirst, hrest]

end Tree

namespace Node

/-- A path leads to the same tree, whether in place or not. -/
theorem map_tree_at? (node : Node) (place : List Nat) :
    (node.at? place).map Node.tree = node.tree.at? place := by
  induction place generalizing node with
  | nil => rfl
  | cons index rest ih =>
    rw [at?, Tree.at?, getElem?_parts]
    cases node.tree.children[index]? with
    | none => rfl
    | some child =>
      cases child with
      | token offset id token => rfl
      | node offset sub => exact ih _

/-- A path leads to a node exactly if there is a face. -/
theorem exists_at?_iff {node : Node} {place : List Nat} :
    (∃ target, node.at? place = some target) ↔ ∃ face, node.tree.faceAt place = some face := by
  rw [Tree.faceAt, ← map_tree_at?, Option.map_map]
  constructor
  · rintro ⟨target, htarget⟩
    exact ⟨_, by rw [htarget]; rfl⟩
  · rintro ⟨face, hface⟩
    obtain ⟨target, htarget, -⟩ := Option.map_eq_some_iff.1 hface
    exact ⟨target, htarget⟩

/-- **Faces tell the stream of a tree.** -/
theorem events_eq_of_faceAt_eq {node : Node} {other : Tree}
    (h : ∀ place, node.tree.faceAt place = other.faceAt place) :
    node.tree.events = other.events := by
  induction node using Node.induction generalizing other with
  | step node ih =>
    have hface : node.tree.face = other.face := Option.some_inj.1 (h [])
    have hkind : node.tree.kind = other.kind := congrArg Face.kind hface
    rw [node.tree.events_eq, other.events_eq, hkind]
    congr 2
    refine Tree.childrenEvents_eq_of_map_token?_eq (congrArg Face.tokens hface)
      fun index offset offset' sub sub' hsub hsub' => ?_
    have hchild := mem_children_iff.2 ⟨index, offset, sub, hsub, rfl⟩
    refine ih _ hchild fun place => ?_
    rw [tree_inner, ← Tree.faceAt_cons_of_node hsub, h, Tree.faceAt_cons_of_node hsub']

/-- **Trees with the same faces look the same.** -/
theorem dump_eq_of_faceAt_eq {tree other : Tree} (hlaid : tree.LaidOut) (hlaid' : other.LaidOut)
    (h : ∀ place, tree.faceAt place = other.faceAt place) : (top tree).dump = (top other).dump := by
  have hevents : (top tree).tree.events = other.events := events_eq_of_faceAt_eq h
  exact dump_eq_of_events_eq hlaid hlaid' hevents

end Node

end LosslessTree
