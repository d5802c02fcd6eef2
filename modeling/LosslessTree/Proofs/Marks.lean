import LosslessTree.Proofs.Stream

/-!
# The events of a stream and the nodes they belong to

Every event of the stream of a tree belongs to one node of the tree: it starts the node, or closes
it, or is a token directly below it. A cursor that has read the stream up to the event stands where
the node begins, behind its last child, or at the token.

## Main definitions

* `Node.Marks`: an event belongs to a node and is read at a cursor.

## Main results

* `Node.exists_marks`: every event of the stream of a tree belongs to a node of the tree.
-/

namespace LosslessTree

/-- An element of a concatenation stands in one of the lists, behind the lists before that one. -/
theorem exists_getElem?_of_flatMap_eq {α β : Type} {f : α → List β} {list : List α}
    {front back : List β} {b : β} (h : list.flatMap f = front ++ b :: back) :
    ∃ (index : Nat) (a : α) (before behind : List β), list[index]? = some a ∧
      f a = before ++ b :: behind ∧ front = (list.take index).flatMap f ++ before := by
  induction list generalizing front with
  | nil => simp at h
  | cons first rest ih =>
    rw [List.flatMap_cons] at h
    rcases List.append_eq_append_iff.1 h with ⟨skipped, rfl, hrest⟩ | ⟨tail, hfirst, htail⟩
    · obtain ⟨index, a, before, behind, hget, ha, rfl⟩ := ih hrest
      exact ⟨index + 1, a, before, behind, hget, ha, by simp⟩
    · cases tail with
      | nil =>
        have hrest : rest.flatMap f = [] ++ b :: back := htail.symm
        obtain ⟨index, a, before, behind, hget, ha, hempty⟩ := ih hrest
        rw [List.append_nil] at hfirst
        exact ⟨index + 1, a, before, behind, hget, ha, by simp [hfirst, ← hempty]⟩
      | cons _ behind =>
        cases htail
        exact ⟨0, first, front, behind, rfl, hfirst, rfl⟩

namespace Node

/-- The event belongs to the node and is read at the cursor: it starts the node, it is a token
directly below it, or it closes the node. -/
inductive Marks (node : Node) : Event → Cursor → Prop
  | start : Marks node (.start node.kind) ⟨node.path, node.offset⟩
  | push {leaf : Leaf} (h : .leaf leaf ∈ node.parts) :
      Marks node (.push leaf.token) ⟨node.path ++ [leaf.index], leaf.offset⟩
  | close : Marks node .close
      ⟨node.path ++ [node.tree.children.length], node.offset + node.byteLen⟩

theorem Marks.of_start {node : Node} {kind : NodeKind} {cursor : Cursor}
    (h : node.Marks (.start kind) cursor) :
    kind = node.kind ∧ cursor = ⟨node.path, node.offset⟩ := by
  cases h
  exact ⟨rfl, rfl⟩

theorem Marks.of_close {node : Node} {cursor : Cursor} (h : node.Marks .close cursor) :
    cursor = ⟨node.path ++ [node.tree.children.length], node.offset + node.byteLen⟩ := by
  cases h
  rfl

/-- The stream of a node up to its end leads behind its last child. -/
theorem after_before_close {node : Node} (hlaid : node.tree.LaidOut) :
    (Cursor.mk node.path node.offset).after
        (.start node.kind :: node.parts.flatMap Part.events) =
      ⟨node.path ++ [node.tree.children.length], node.offset + node.byteLen⟩ := by
  have hafter := Cursor.after_childrenEvents node.tree.children
    (fun offset sub hmem => hlaid.of_mem hmem) node.path 0 node.offset
  have hall := node.flatMap_events_drop 0
  rw [List.drop_zero, List.drop_zero] at hall
  rw [hall, Cursor.after_cons, Cursor.step, hafter, hlaid.childrenSize_eq, Nat.zero_add]
  rfl

/-- An event of the stream of a node is its start, or its end, or stands in the stream of a part. -/
theorem event_cases {node : Node} {front back : List Event} {event : Event}
    (h : node.tree.events = front ++ event :: back) :
    (front = [] ∧ event = .start node.kind) ∨
    (front = .start node.kind :: node.parts.flatMap Part.events ∧ event = .close) ∨
    ∃ (index : Nat) (part : Part) (before behind : List Event), node.parts[index]? = some part ∧
      part.events = before ++ event :: behind ∧ front = node.before index ++ before := by
  rw [events_eq_parts, List.cons_append] at h
  cases front with
  | nil =>
    cases h
    exact .inl ⟨rfl, rfl⟩
  | cons first front =>
    rw [List.cons_append] at h
    obtain ⟨rfl, hbody⟩ := List.cons_eq_cons.1 h
    rcases List.eq_nil_or_concat back with rfl | ⟨back, last, rfl⟩
    · obtain ⟨rfl, hevent⟩ := List.append_inj' hbody rfl
      cases hevent
      exact .inr (.inl ⟨rfl, rfl⟩)
    · rw [List.concat_eq_append, ← List.cons_append, ← List.append_assoc] at hbody
      obtain ⟨hparts, -⟩ := List.append_inj' hbody rfl
      obtain ⟨index, part, before, behind, hget, hpart, rfl⟩ :=
        exists_getElem?_of_flatMap_eq hparts
      exact .inr (.inr ⟨index, part, before, behind, hget, hpart, rfl⟩)

/-- **Every event of the stream of a node belongs to a node of its subtree**, and the stream up to
the event leads there. -/
theorem exists_marks {node : Node} (hlaid : node.tree.LaidOut) {front back : List Event}
    {event : Event} (h : node.tree.events = front ++ event :: back) :
    ∃ below, node.Within below ∧
      below.Marks event ((Cursor.mk node.path node.offset).after front) := by
  induction node using Node.induction generalizing front back with
  | step node ih =>
    rcases event_cases h with ⟨rfl, rfl⟩ | ⟨rfl, rfl⟩ |
      ⟨index, part, before, behind, hget, hpart, rfl⟩
    · exact ⟨node, .refl node, .start⟩
    · rw [after_before_close hlaid]
      exact ⟨node, .refl node, .close⟩
    · rw [Cursor.after_append, after_before hlaid hget]
      cases part with
      | leaf leaf =>
        obtain ⟨-, rfl⟩ := parent_eq_of_getElem?_parts hget
        have hsingle : before = [] ∧ event = .push leaf.token := by
          cases before with
          | nil =>
            cases hpart
            exact ⟨rfl, rfl⟩
          | cons first rest => simp [Part.events] at hpart
        obtain ⟨rfl, rfl⟩ := hsingle
        exact ⟨node, .refl node, .push (List.mem_of_getElem? hget)⟩
      | node child =>
        have hchild := mem_children.2 (List.mem_of_getElem? hget)
        obtain ⟨below, hbelow, hmarks⟩ :=
          ih child hchild ((Within.of_mem_children hchild).laidOut hlaid) hpart
        obtain ⟨offset, sub, -, rfl⟩ := exists_of_getElem?_parts hget
        exact ⟨below, .head hchild hbelow, hmarks⟩

end Node

end LosslessTree
