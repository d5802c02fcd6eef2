import LosslessTree.Proofs.Transform.Single
import LosslessTree.View.Named

/-!
# The copy of a named element

Renaming an element makes a copy of its node in which the token of the name is another one, and puts
this copy in place of the element in the tree around it. The copy has the identity of the place
where it is going to stand, and all nodes below it are shared.

## Main definitions

* `Node.childrenWith`, `Node.treeWith`: the children of a node with another token among them, and
  the tree with these children.

## Main results

* `Node.yields_withToken`: the copy is laid out, and can be made if its length fits a word.
* `Node.events_treeWith`: the copy has the same stream, apart from the token.
* `Named.rename_eq`, `Named.exists_of_rename`: renaming is a copy followed by a transformation.
-/

namespace LosslessTree

namespace Node

variable {kept : Tree → Prop} {node : Node} {origin index : Nat} {token : Token}

/-- The children of a node with another token at an index, made by operation number `origin`. -/
def childrenWith (node : Node) (origin index : Nat) (token : Token) : List Child :=
  node.tree.children.set index (.token 0 ⟨origin, node.path ++ [index]⟩ token)

/-- The tree of a node with another token at an index, laid out. -/
def treeWith (node : Node) (origin index : Nat) (token : Token) : Tree :=
  (Draft.ofChildren node.kind (node.childrenWith origin index token)).toTree ⟨origin, node.path⟩

/-- The copy of a node can be made if its length fits a word. -/
theorem yields_withToken (hlaid : node.tree.LaidOut) (origin index : Nat) (token : Token) :
    Yields (node.withToken origin index token)
      (childrenSize (node.childrenWith origin index token) < wordSize)
      (node.treeWith origin index token) := by
  have hyields := Draft.yields_replaceChild_ofChildren node.kind node.tree.children index
    (.token 0 ⟨origin, node.path ++ [index]⟩ token)
  have hdraft : node.tree.toDraft = .ofChildren node.kind node.tree.children := hlaid.toDraft_eq
  rw [← hdraft] at hyields
  exact hyields.map fun draft => draft.toTree ⟨origin, node.path⟩

/-- The trees in the copy are those that were there before. -/
theorem getElem?_of_childrenWith {place offset : Nat} {sub : Tree}
    (h : (node.childrenWith origin index token)[place]? = some (.node offset sub)) :
    node.tree.children[place]? = some (.node offset sub) := by
  rw [childrenWith, List.getElem?_set] at h
  split_ifs at h with hplace
  · cases h
  · exact h

theorem laidOut_treeWith (hlaid : node.tree.LaidOut)
    (hfits : childrenSize (node.childrenWith origin index token) < wordSize) :
    (node.treeWith origin index token).LaidOut := by
  refine Tree.LaidOut.ofChildren hfits (fun hmem => ?_) _ _
  obtain ⟨place, hget⟩ := List.mem_iff_getElem?.1 hmem
  exact hlaid.of_mem (List.mem_of_getElem? (getElem?_of_childrenWith hget))

theorem madeBy_treeWith (hclosed : ClosedBelow kept) (hold : kept node.tree)
    (origin index : Nat) (token : Token) :
    (node.treeWith origin index token).MadeBy kept ⟨origin, node.path⟩ := by
  show (node.treeWith origin index token).MadeBy kept (node.treeWith origin index token).id
  refine .make fun hget => .keep ?_
  obtain ⟨old, hplace⟩ := exists_getElem?_of_place hget
  exact hclosed hold (List.mem_of_getElem? (getElem?_of_childrenWith hplace))

/-- The copy of a node has the same stream, apart from the token that was exchanged. -/
theorem events_treeWith (hindex : index < node.tree.children.length) (origin : Nat)
    (token : Token) :
    (node.treeWith origin index token).events =
      node.before index ++ .push token :: node.behind index := by
  have hchildren : childrenEvents (node.childrenWith origin index token) =
      (node.parts.take index).flatMap Part.events ++
        .push token :: (node.parts.drop (index + 1)).flatMap Part.events := by
    rw [childrenWith, List.set_eq_take_append_cons_drop, if_pos hindex, childrenEvents_append,
      childrenEvents_cons, flatMap_events_take, flatMap_events_drop]
    rfl
  have hevents := (node.treeWith origin index token).events_eq
  have hplaced : (node.treeWith origin index token).children =
      place 0 (node.childrenWith origin index token) := rfl
  rw [hplaced, childrenEvents_place, hchildren] at hevents
  rw [hevents, before, behind]
  simp only [List.cons_append, List.append_assoc]
  rfl

/-- The copy of a node is longer or shorter by the difference of the tokens. -/
theorem byteLen_treeWith (hlaid : node.tree.LaidOut) {leaf : Leaf}
    (hleaf : node.parts[index]? = some (.leaf leaf)) (origin : Nat) (token : Token) :
    (node.treeWith origin index token).byteLen + leaf.token.size = node.byteLen + token.size := by
  rw [getElem?_parts] at hleaf
  obtain ⟨child, hchild, hpart⟩ := Option.map_eq_some_iff.1 hleaf
  have hsize : child.size = leaf.token.size := by
    cases child with
    | token => cases hpart; rfl
    | node => cases hpart
  have hset := childrenSize_set hchild (.token 0 ⟨origin, node.path ++ [index]⟩ token)
  rw [hsize, hlaid.childrenSize_eq] at hset
  exact hset

end Node

namespace Named

variable {named : Named} {origin : Nat} {newName : String} {leaf : Leaf}

/-- Renaming makes a copy of the element and puts it in place of the element. -/
theorem rename_eq (h : named.nameToken? = some leaf) (origin : Nat) (newName : String) :
    named.rename origin newName =
      some (.of (named.raw.withToken origin leaf.index (leaf.token.withText newName)) >>=
        fun renamed => named.raw.root.transform origin (Node.only named.raw (.top renamed))) := by
  rw [rename, h]
  rfl

/-- What a renamed tree was made of. -/
theorem exists_of_rename {outcome : Outcome Node} {root : Node}
    (h : named.rename origin newName = some outcome) (hok : outcome.result = .ok root) :
    ∃ leaf renamed tree, named.nameToken? = some leaf ∧
      named.raw.withToken origin leaf.index (leaf.token.withText newName) = .ok renamed ∧
      named.raw.root.renewed origin (Node.only named.raw (.top renamed)) [] = .ok tree ∧
      root = .top tree := by
  obtain ⟨leaf, hleaf, -⟩ := Option.map_eq_some_iff.1 h
  rw [rename_eq hleaf, Option.some_inj] at h
  rw [← h, Outcome.result_bind, Outcome.result_of] at hok
  obtain ⟨renamed, hcopy, htransform⟩ := bind_eq_ok_iff.1 hok
  rw [Node.result_transform] at htransform
  obtain ⟨tree, hrenewed, hroot⟩ := bind_eq_ok_iff.1 htransform
  cases hroot
  exact ⟨leaf, renamed, tree, hleaf, hcopy, hrenewed, rfl⟩

end Named

end LosslessTree
