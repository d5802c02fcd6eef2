import LosslessTree.Proofs.Within

/-!
# Going from node to node

A node in place finds its neighbours by its index among the parts of its parent, where nodes and
tokens are counted together. What it finds are its neighbours among the children of its parent,
where only nodes are counted. So going on from sibling to sibling runs through the children in
order, and going up leads back to where one came from.

## Main definitions

* `Node.at?`: the node to which child indices lead.

## Main results

* `Node.nextSibling?_of_children_eq`: the next sibling of a node is the next child of its parent.
* `Node.pairwise_index_children`: no two children of a node have the same index.
* `Node.Within.of_parent?`, `Node.Within.of_nextSibling?`: navigation stays in the tree.
* `Node.at?_eq_some_iff`: a path leads to the node whose path it is.
-/

namespace LosslessTree.Node

variable {node child : Node}

theorem parent?_of_mem_children (h : child ∈ node.children) : child.parent? = some node := by
  obtain ⟨index, offset, tree, -, rfl⟩ := mem_children_iff.1 h
  rfl

/-- A node is a child of one node only. -/
theorem eq_of_mem_children {other : Node} (h : child ∈ node.children)
    (hother : child ∈ other.children) : node = other := by
  rw [← Option.some_inj, ← parent?_of_mem_children h, parent?_of_mem_children hother]

/-- What is said of the children of a node can be said of its parts, with nothing about tokens. -/
theorem flatMap_parts {α : Type} (f : Node → List α) (node : Node) :
    node.parts.flatMap (Part.elim f fun _ => []) = node.children.flatMap f := by
  unfold children
  induction node.parts with
  | nil => rfl
  | cons part rest ih =>
    rw [List.flatMap_cons, ih]
    cases part <;> rfl

/-- **The next sibling of a node is the next child of its parent**, although the one is found by an
index that counts tokens too. -/
theorem nextSibling?_of_children_eq {front back : List Node}
    (h : node.children = front ++ child :: back) : child.nextSibling? = back.head? := by
  obtain ⟨before, behind, hparts, -, hbehind⟩ := List.filterMap_eq_append_iff.1 h
  obtain ⟨skipped, part, rest, rfl, -, hpart, hrest⟩ := List.filterMap_eq_cons_iff.1 hbehind
  cases part with
  | leaf leaf => cases hpart
  | node found =>
    cases hpart
    -- The place of the child among the parts is its index.
    have hget : node.parts[(before ++ skipped).length]? = some (.node child) := by
      rw [hparts, ← List.append_assoc, List.getElem?_append_right (Nat.le_refl _)]
      simp
    have hsplit : node.parts.drop ((before ++ skipped).length + 1) = rest := by
      rw [hparts, ← List.append_assoc, ← List.drop_drop, List.drop_left]
      rfl
    obtain ⟨offset, tree, -, rfl⟩ := exists_of_getElem?_parts hget
    change (node.parts.drop ((before ++ skipped).length + 1)).findSome? Part.node? = back.head?
    rw [hsplit, ← hrest, List.head?_filterMap]

/-- No two children of a node have the same index. -/
theorem pairwise_index_children (node : Node) :
    node.children.Pairwise fun child other => child.index ≠ other.index := by
  refine List.pairwise_filterMap.2 (List.pairwise_iff_getElem.2 fun i j hi hj hlt => ?_)
  intro child hchild other hother
  have hindex (k : Nat) (hk : k < node.parts.length) (found : Node)
      (hfound : node.parts[k].node? = some found) : found.index = k := by
    have hget := List.getElem?_eq_getElem hk
    cases hpart : node.parts[k] with
    | leaf leaf =>
      rw [hpart] at hfound
      cases hfound
    | node part =>
      rw [hpart] at hfound hget
      cases hfound
      obtain ⟨offset, tree, -, rfl⟩ := exists_of_getElem?_parts hget
      rfl
  rw [hindex i hi child hchild, hindex j hj other hother]
  omega

/-- Two children of a node below which one node stands are one child. -/
theorem eq_of_within_children {other below : Node} (hchild : child ∈ node.children)
    (hother : other ∈ node.children) (h : child.Within below) (hbelow : other.Within below) :
    child = other := by
  by_contra hne
  have hindex : other.index ≠ child.index := by
    intro hindex
    have hget := getElem?_parts_of_mem_children hother
    rw [hindex, getElem?_parts_of_mem_children hchild] at hget
    cases hget
    exact hne rfl
  exact Within.ne_of_index_ne hchild hother hindex h hbelow rfl

namespace Within

/-- A node of a tree stands below its parent, which is a node of the tree as well. -/
theorem of_parent? {tree : Tree} {parent : Node} (h : (top tree).Within node)
    (hparent : node.parent? = some parent) :
    (top tree).Within parent ∧ node ∈ parent.children := by
  rcases Relation.ReflTransGen.cases_tail h with rfl | ⟨above, habove, hchild⟩
  · cases hparent
  · rw [parent?_of_mem_children hchild] at hparent
    cases hparent
    exact ⟨habove, hchild⟩

/-- The next sibling of a node of a tree is a child of the same parent. -/
theorem of_nextSibling? {tree : Tree} {sibling : Node} (h : (top tree).Within node)
    (hsibling : node.nextSibling? = some sibling) :
    ∃ parent, (top tree).Within parent ∧ node ∈ parent.children ∧ sibling ∈ parent.children := by
  obtain ⟨parent, index, hparent, -, hget⟩ := exists_of_nextSibling? hsibling
  obtain ⟨habove, hchild⟩ := h.of_parent? hparent
  exact ⟨parent, habove, hchild, mem_children.2 (List.mem_of_getElem? hget)⟩

/-- The node above another one does not stand below it. -/
theorem not_parent {parent : Node} (hchild : child ∈ parent.children) :
    ¬child.Within parent := by
  intro h
  exact ne_of_mem_children hchild h rfl

/-- A node of a subtree is its top, or stands below a child of it. -/
theorem eq_or_exists_child {start : Node} (h : start.Within node) :
    node = start ∨ ∃ child ∈ start.children, child.Within node := by
  rcases Relation.ReflTransGen.cases_head h with rfl | hchild
  · exact .inl rfl
  · exact .inr hchild

/-- Two nodes that stand below each other are one node. -/
theorem antisymm {start : Node} (h : start.Within node) (hback : node.Within start) :
    node = start := by
  rcases h.eq_or_exists_child with heq | ⟨child, hchild, hbelow⟩
  · exact heq
  · exact absurd (hbelow.trans hback) (not_parent hchild)

/-- Of two nodes above a third one, one stands above the other. -/
theorem total {other below : Node} (h : node.Within below) (hother : other.Within below) :
    node.Within other ∨ other.Within node := by
  induction h with
  | refl => exact .inr hother
  | @tail parent child hparent hchild ih =>
    rcases Relation.ReflTransGen.cases_tail hother with rfl | ⟨above, habove, hchild'⟩
    · exact .inl (hparent.tail hchild)
    · obtain rfl := eq_of_mem_children hchild hchild'
      exact ih habove

end Within

/-! ### Going down along a path -/

/-- The node to which child indices lead from a node, tokens counted. -/
def at? : Node → List Nat → Option Node
  | node, [] => some node
  | node, index :: rest =>
    match node.parts[index]? with
    | some (.node child) => child.at? rest
    | _ => none

theorem at?_cons_of_mem_children (h : child ∈ node.children) (rest : List Nat) :
    node.at? (child.index :: rest) = child.at? rest := by
  rw [at?, getElem?_parts_of_mem_children h]

/-- **A path leads to the node whose path it is.** -/
theorem at?_eq_some_iff {start : Node} {place : List Nat} :
    start.at? place = some node ↔ start.Within node ∧ node.path = start.path ++ place := by
  induction place generalizing start with
  | nil =>
    rw [at?, Option.some_inj, List.append_nil]
    constructor
    · rintro rfl
      exact ⟨.refl start, rfl⟩
    · rintro ⟨hwithin, hpath⟩
      rcases hwithin.eq_or_exists_child with rfl | ⟨child, hchild, hbelow⟩
      · rfl
      · obtain ⟨rest, hrest⟩ := hbelow.exists_path_eq
        rw [hpath, path_eq_of_mem_children hchild] at hrest
        simp at hrest
  | cons index rest ih =>
    constructor
    · intro hat
      rw [at?] at hat
      split at hat
      · rename_i child hget
        obtain ⟨hwithin, hpath⟩ := ih.1 hat
        have hchild := mem_children.2 (List.mem_of_getElem? hget)
        refine ⟨.head hchild hwithin, ?_⟩
        obtain ⟨_, _, -, rfl⟩ := exists_of_getElem?_parts hget
        simpa using hpath
      · cases hat
    · rintro ⟨hwithin, hpath⟩
      rcases hwithin.eq_or_exists_child with rfl | ⟨child, hchild, hbelow⟩
      · simp at hpath
      · obtain ⟨below, hplace⟩ := hbelow.exists_path_eq
        have hsplit : index = child.index ∧ rest = below := by
          rw [hplace, path_eq_of_mem_children hchild] at hpath
          simpa [eq_comm] using hpath
        obtain ⟨rfl, rfl⟩ := hsplit
        rw [at?_cons_of_mem_children hchild]
        exact ih.2 ⟨hbelow, hplace⟩

end LosslessTree.Node
