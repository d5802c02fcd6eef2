import LosslessTree.Proofs.Forest

/-!
# Ranges of the text

Every node and every token of a tree says where it starts and how long it is. Both numbers are read
off the tree, where offsets are stored relative to the node above, and never off the text. They
point to the right place: the bytes of the whole text in that range are the text of the part.

## Main definitions

* `slice`: the bytes of a text in a range.
* `Tiles`: parts that stand one after the other without a gap.

## Main results

* `Node.Reaches.exists_split_size`: a part stands in the stream of the tree behind as many bytes as
  its offset says.
* `Node.tiles_parts`: the parts of a node tile it.
* `Forest.Reachable.parts_occupy_their_ranges`: ranges and texts agree in every tree of a run.
-/

namespace LosslessTree

/-- The bytes of a text from one offset to another. -/
def slice (text : String) (start stop : Nat) : ByteArray :=
  text.toByteArray.extract start stop

/-- The bytes in the middle of a text. -/
theorem slice_append (front middle back : String) {start stop : Nat}
    (hstart : start = front.utf8ByteSize) (hstop : stop = start + middle.utf8ByteSize) :
    slice (front ++ middle ++ back) start stop = middle.toByteArray := by
  have hsize : stop = (front ++ middle).toByteArray.size := by
    rw [String.size_toByteArray, String.utf8ByteSize_append]
    omega
  rw [slice, String.toByteArray_append, hsize, ByteArray.extract_append_size_left,
    String.toByteArray_append]
  refine ByteArray.extract_append_eq_right ?_ ?_
  · rw [hstart, String.size_toByteArray]
  · rw [ByteArray.size_append]

/-- The text of a part is the text of its stream. -/
theorem Part.streamText_events (part : Part) : streamText part.events = part.text := by
  cases part with
  | node node => exact LosslessTree.streamText_events node.tree
  | leaf leaf => simp [events, text, streamText, Event.text, Leaf.fullText]

namespace Node

/-- **A part stands behind as many bytes as its offset says.** -/
theorem Reaches.exists_split_size {tree : Tree} (hlaid : tree.LaidOut) {part : Part}
    (h : (top tree).Reaches part) :
    ∃ front back, tree.events = front ++ part.events ++ back ∧ streamSize front = part.offset := by
  obtain ⟨front, back, hevents, hafter⟩ := h.exists_split hlaid
  have hoffset := Cursor.offset_after ⟨(top tree).path, (top tree).offset⟩ front
  rw [hafter, offset_top, Nat.zero_add] at hoffset
  exact ⟨front, back, hevents, hoffset.symm⟩

/-- The length of a part is the size of its text. -/
theorem Reaches.byteLen_eq {tree : Tree} (hlaid : tree.LaidOut) {part : Part}
    (h : (top tree).Reaches part) : part.byteLen = .ok part.text.utf8ByteSize := by
  cases part with
  | node node => exact congrArg Except.ok (Within.laidOut h hlaid).byteLen_eq
  | leaf leaf =>
    obtain ⟨front, back, hevents, -⟩ := h.exists_split_size hlaid
    have hfits : leaf.token.size < wordSize := by
      have hsize := congrArg streamSize hevents
      have hlt := hlaid.byteLen_lt
      simp only [Part.events, streamSize_append, streamSize_cons, Event.size,
        hlaid.streamSize_events] at hsize
      omega
    exact leaf.token.measures_byteLen.eq_ok hfits

/-- The bytes in the range of a part are the text of the part. -/
theorem Reaches.slice_eq {tree : Tree} (hlaid : tree.LaidOut) {part : Part}
    (h : (top tree).Reaches part) :
    slice tree.text part.offset (part.offset + part.text.utf8ByteSize) = part.text.toByteArray := by
  obtain ⟨front, back, hevents, hoffset⟩ := h.exists_split_size hlaid
  have htext := congrArg streamText hevents
  rw [streamText_events, streamText_append, streamText_append, part.streamText_events] at htext
  rw [htext]
  exact slice_append _ _ _ (by rw [utf8ByteSize_streamText, hoffset]) rfl

end Node

/-- Parts that fill the range from one offset to another: the first one starts at the first offset,
each next one where the one before it ends, and the last one ends at the second offset. -/
def Tiles (start stop : Nat) : List Part → Prop
  | [] => start = stop
  | part :: rest => part.offset = start ∧ ∃ length, part.byteLen = .ok length ∧
      Tiles (start + length) stop rest

namespace Node

theorem byteLen_part (node : Node) (index : Nat) {child : Child} (hfits : child.size < wordSize) :
    (node.part index child).byteLen = .ok child.size := by
  cases child with
  | token offset id token => exact token.measures_byteLen.eq_ok hfits
  | node offset tree => rfl

/-- The loop over the children: those behind `start` bytes tile the rest of the node. -/
theorem tiles_partsFrom (node : Node) (children : List Child) (index start : Nat)
    (hplaced : place start children = children) (hfits : childrenSize children < wordSize) :
    Tiles (node.offset + start) (node.offset + start + childrenSize children)
      (node.partsFrom index children) := by
  induction children generalizing index start with
  | nil => rfl
  | cons child rest ih =>
    rw [childrenSize] at hfits
    rw [childrenSize, partsFrom_cons]
    obtain ⟨hhead, htail⟩ := List.cons_eq_cons.1 hplaced
    have hoffset : (node.part index child).offset = node.offset + start := by
      rw [← hhead]
      cases child <;> rfl
    have hrest := ih (index + 1) (start + child.size) htail (by omega)
    refine ⟨hoffset, child.size, node.byteLen_part index (by omega), ?_⟩
    simpa only [Nat.add_assoc] using hrest

/-- **The parts of a node tile it.** -/
theorem tiles_parts {node : Node} (h : node.tree.LaidOut) :
    Tiles node.offset (node.offset + node.byteLen) node.parts := by
  have htiles := node.tiles_partsFrom node.tree.children 0 0 h.place_children
    (h.childrenSize_eq ▸ h.byteLen_lt)
  rwa [h.childrenSize_eq] at htiles

end Node

/-- **Ranges and texts agree in every tree of a run.** The length of a node or token is the size of
its text, the bytes of the whole text in its range are its text, and the parts of every node tile
that node. -/
theorem Forest.Reachable.parts_occupy_their_ranges {forest : Forest} (h : forest.Reachable)
    {tree : Tree} (htree : tree ∈ forest.trees) :
    (∀ part, (Node.top tree).Reaches part →
      part.byteLen = .ok part.text.utf8ByteSize ∧
      slice (Node.top tree).text part.offset (part.offset + part.text.utf8ByteSize) =
        part.text.toByteArray) ∧
    ∀ node, (Node.top tree).Within node →
      Tiles node.offset (node.offset + node.byteLen) node.parts := by
  have hlaid := h.sound.laidOut htree
  refine ⟨fun part hpart => ⟨hpart.byteLen_eq hlaid, hpart.slice_eq hlaid⟩, fun node hnode => ?_⟩
  exact Node.tiles_parts (hnode.laidOut hlaid)

/-- The second variable of `ü .ü ` starts behind four bytes and has three. -/
theorem Forest.second_variable_occupies_its_range :
    ((empty.add 0 dottedTree).add 1 sharingTree).Reachable ∧
    sharingTree ∈ ((empty.add 0 dottedTree).add 1 sharingTree).trees ∧
    (Node.inner (.top sharingTree) 2 4 variableTree).byteLen = 3 ∧
    slice "ü .ü " 4 7 = "ü ".toByteArray ∧ Tiles 0 7 (Node.top sharingTree).parts := by
  have hmem : sharingTree ∈ ((empty.add 0 dottedTree).add 1 sharingTree).trees := .head _
  have hranges := Reachable.parts_occupy_their_ranges reachable_sharing hmem
  have hsecond : (Node.top sharingTree).Within (.inner (.top sharingTree) 2 4 variableTree) :=
    .of_mem_children (.tail _ (.head _))
  exact ⟨reachable_sharing, hmem, rfl, (hranges.1 (.node _) hsecond).2, hranges.2 _ (.refl _)⟩

end LosslessTree
