import LosslessTree.Proofs.Stream

/-!
# What is seen of a tree

The dump of a subtree lists all that can be seen of it, identities apart: for every node and token
in textual order its path, its kind, its texts and trivia, its offset and its length. Offsets and
lengths are read off the tree. Still, of a tree that is laid out the dump is determined by the
stream alone. A stream can be read in one way only, because it says where each node ends.

## Main definitions

* `Part.entry`, `Node.dump`: what is seen of a part, and of a subtree.
* `Node.ReadAlone`: at the beginning of a stream only one dump can be read.

## Main results

* `Node.readAlone`: this holds of every node.
* `Node.dump_eq_of_events_eq`: trees with the same stream have the same dump.
-/

namespace LosslessTree

/-- What is seen of a part: its row, and its length. -/
def Part.entry (part : Part) : Row × Except Overflow Nat :=
  (part.row, part.byteLen)

namespace Node

/-- All that is seen of a subtree, in textual order. -/
def dump (node : Node) : List (Row × Except Overflow Nat) :=
  node.allParts.map Part.entry

/-- All that is seen of a part and what is below it. -/
def dumpPart : Part → List (Row × Except Overflow Nat) :=
  Part.elim dump fun leaf => [(Part.leaf leaf).entry]

theorem dump_eq (node : Node) :
    node.dump = (Part.node node).entry :: node.parts.flatMap dumpPart :=
  node.map_allParts Part.entry

/-- At the beginning of a stream only one dump can be read: if two streams agree and both begin with
a tree at the same position, then the trees look the same and the streams go on in the same way. -/
def ReadAlone (node : Node) : Prop :=
  ∀ ⦃other : Node⦄ ⦃rest rest' : List Event⦄, node.tree.LaidOut → other.tree.LaidOut →
    node.path = other.path → node.offset = other.offset →
      node.tree.events ++ rest = other.tree.events ++ rest' → node.dump = other.dump ∧ rest = rest'

/-- The same of the children of two nodes, up to the end of the nodes. -/
theorem flatMap_dumpPart_eq {node other : Node} (hpath : node.path = other.path)
    (hoffset : node.offset = other.offset) {rest rest' : List Event} (children others : List Child)
    (hlaid : ∀ offset sub, .node offset sub ∈ children → sub.LaidOut)
    (hlaid' : ∀ offset sub, .node offset sub ∈ others → sub.LaidOut) (index start : Nat)
    (hplaced : place start children = children) (hplaced' : place start others = others)
    (hread : ∀ child, .node child ∈ node.partsFrom index children → child.ReadAlone)
    (hevents : childrenEvents children ++ .close :: rest =
      childrenEvents others ++ .close :: rest') :
    (node.partsFrom index children).flatMap dumpPart =
      (other.partsFrom index others).flatMap dumpPart ∧ rest = rest' := by
  induction children generalizing others index start with
  | nil =>
    cases others with
    | nil =>
      obtain ⟨-, hrest⟩ := List.cons_eq_cons.1 hevents
      exact ⟨rfl, hrest⟩
    | cons child others =>
      cases child <;> simp [childrenEvents, Tree.events_eq] at hevents
  | cons child children ih =>
    cases others with
    | nil => cases child <;> simp [childrenEvents, Tree.events_eq] at hevents
    | cons child' others =>
      obtain ⟨hhead, htail⟩ := List.cons_eq_cons.1 hplaced
      obtain ⟨hhead', htail'⟩ := List.cons_eq_cons.1 hplaced'
      rw [childrenEvents_cons, childrenEvents_cons, List.append_assoc, List.append_assoc] at hevents
      -- Once the first children look the same, the next ones start at the same offset.
      have hgo (hsize : child.size = child'.size)
          (hdump : dumpPart (node.part index child) = dumpPart (other.part index child'))
          (hnext : childrenEvents children ++ .close :: rest =
            childrenEvents others ++ .close :: rest') :
          (node.partsFrom index (child :: children)).flatMap dumpPart =
            (other.partsFrom index (child' :: others)).flatMap dumpPart ∧ rest = rest' := by
        obtain ⟨hparts, hrest⟩ := ih others (fun offset sub hmem => hlaid offset sub (.tail _ hmem))
          (fun offset sub hmem => hlaid' offset sub (.tail _ hmem)) (index + 1) (start + child.size)
          htail (hsize ▸ htail') (fun child hmem => hread child (.tail _ hmem)) hnext
        rw [partsFrom_cons, partsFrom_cons, List.flatMap_cons, List.flatMap_cons, hdump, hparts]
        exact ⟨rfl, hrest⟩
      cases child with
      | token offset id token =>
        cases child' with
        | token offset' id' token' =>
          obtain ⟨htoken, hnext⟩ := List.cons_eq_cons.1 hevents
          cases htoken
          cases hhead
          cases hhead'
          refine hgo rfl ?_ hnext
          simp only [dumpPart, part, Part.elim, Part.entry, Part.row, Part.byteLen, Leaf.byteLen,
            hpath, hoffset]
        | node offset' tree' => simp [Child.events, Tree.events_eq] at hevents
      | node offset tree =>
        cases child' with
        | token offset' id' token' => simp [Child.events, Tree.events_eq] at hevents
        | node offset' tree' =>
          cases hhead
          cases hhead'
          have htree := hlaid start tree (.head _)
          have htree' := hlaid' start tree' (.head _)
          obtain ⟨hdump, hnext⟩ := hread (inner node index (node.offset + start) tree) (.head _)
            htree (show (inner other index (other.offset + start) tree').tree.LaidOut from htree')
            (by simp [hpath]) (by simp [hoffset]) hevents
          have hsame : tree.events = tree'.events := by
            rw [hnext] at hevents
            exact List.append_cancel_right hevents
          have hsize : tree.byteLen = tree'.byteLen := by
            rw [← htree.streamSize_events, ← htree'.streamSize_events, hsame]
          exact hgo hsize hdump hnext

/-- **A stream can be read in one way only.** -/
theorem readAlone (node : Node) : node.ReadAlone := by
  induction node using Node.induction with
  | step node ih =>
    intro other rest rest' hlaid hlaid' hpath hoffset hevents
    have hchildren := hevents
    rw [node.tree.events_eq, other.tree.events_eq] at hchildren
    simp only [List.cons_append, List.append_assoc, List.nil_append, List.cons.injEq,
      Event.start.injEq] at hchildren
    obtain ⟨hkind, hchildren⟩ := hchildren
    obtain ⟨hparts, rfl⟩ := flatMap_dumpPart_eq hpath hoffset node.tree.children
      other.tree.children (fun _ _ hmem => hlaid.of_mem hmem) (fun _ _ hmem => hlaid'.of_mem hmem)
      0 0 hlaid.place_children hlaid'.place_children
      (fun child hmem => ih child (mem_children.2 hmem)) hchildren
    have hsame := List.append_cancel_right hevents
    have hlen : node.byteLen = other.byteLen := by
      rw [byteLen, byteLen, ← hlaid.streamSize_events, ← hlaid'.streamSize_events, hsame]
    have hentry : (Part.node node).entry = (Part.node other).entry := by
      simp only [Part.entry, Part.row, Part.byteLen, hpath, hoffset, hlen, kind, hkind]
    rw [dump_eq, dump_eq, parts_eq_partsFrom, parts_eq_partsFrom, hparts, hentry]
    exact ⟨rfl, rfl⟩

/-- **Trees with the same stream have the same dump.** -/
theorem dump_eq_of_events_eq {tree other : Tree} (hlaid : tree.LaidOut) (hlaid' : other.LaidOut)
    (h : tree.events = other.events) : (top tree).dump = (top other).dump :=
  ((top tree).readAlone hlaid (show (top other).tree.LaidOut from hlaid') rfl rfl
    (congrArg (· ++ []) h)).1

end Node

end LosslessTree
