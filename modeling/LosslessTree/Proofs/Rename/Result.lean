import LosslessTree.Proofs.TextRanges
import LosslessTree.Proofs.Transform.Rebuild

/-!
# What renaming changes

Renaming an element changes one token and nothing else that can be seen, apart from the offsets
behind that token. In the stream of the tree one event is exchanged for another; the text and all
positions follow from that.

## Main definitions

* `Named.nameIndex`: which of its identifiers names an element.
* `Row.shift`: a row behind a text that has changed its length.
* `Node.ExchangesText`: all that can be seen of two trees that differ in the text of a token.

## Main results

* `Cursor.rows_move`: where a stream starts shows in the offsets only.
* `Node.ExchangesText.of_events`: it is enough to compare streams.
* `Forest.Sound.exists_yields_exchange`: a token is exchanged exactly if the new tree is not too
  long.
* `Forest.Reachable.rename_exchanges_name`: when an element can be renamed, and the new tree.
-/

namespace LosslessTree

/-! ### Streams in which one token changes -/

/-- A row counted from another place, `start` bytes further to the left. -/
def Row.move (start : Nat) (row : Row) : Row :=
  { row with offset := start + row.offset }

/-- A row after the text in front of it has changed: instead of `gone` bytes there are `come`. -/
def Row.shift (gone come : Nat) (row : Row) : Row :=
  { row with offset := row.offset - gone + come }

/-- Where a stream starts shows in the offsets only. -/
theorem Cursor.rows_move (path : List Nat) (start offset : Nat) (events : List Event) :
    (Cursor.mk path (start + offset)).rows events =
      ((Cursor.mk path offset).rows events).map (Row.move start) := by
  induction events generalizing path offset with
  | nil => rfl
  | cons event rest ih =>
    rw [rows, rows, List.map_append]
    cases event with
    | start kind =>
      rw [step, ih]
      rfl
    | push token =>
      rw [step, Nat.add_assoc, ih]
      rfl
    | close =>
      rw [step, ih]
      rfl

/-- If one token of a stream changes, the rows before it stay and those behind it are shifted. -/
theorem Node.exists_rows_of_token {tree new : Tree} (hlaid : tree.LaidOut) (hlaid' : new.LaidOut)
    {front back : List Event} {token token' : Token} {path : List Nat} {offset : Nat}
    (hevents : tree.events = front ++ .push token :: back)
    (hevents' : new.events = front ++ .push token' :: back)
    (hafter : (Cursor.mk [] 0).after front = ⟨path, offset⟩) :
    ∃ rows rest, (top tree).rows = rows ++ ⟨path, .token token, offset⟩ :: rest ∧
      (top new).rows = rows ++ ⟨path, .token token', offset⟩ ::
        rest.map (Row.shift token.size token'.size) ∧
      ∀ row ∈ rest, offset + token.size ≤ row.offset := by
  -- The rows behind the token, counted from where the token ends.
  let rest := (Cursor.mk (path.modifyLast (· + 1)) 0).rows back
  have hrows (token : Token) : (Cursor.mk [] 0).rows (front ++ .push token :: back) =
      (Cursor.mk [] 0).rows front ++ ⟨path, .token token, offset⟩ ::
        rest.map (Row.move (offset + token.size)) := by
    rw [Cursor.rows_append, hafter, ← Cursor.rows_move]
    rfl
  have hshift (row : Row) : (row.move (offset + token.size)).shift token.size token'.size =
      row.move (offset + token'.size) := by
    simp only [Row.move, Row.shift, Row.mk.injEq, true_and]
    omega
  refine ⟨(Cursor.mk [] 0).rows front, rest.map (Row.move (offset + token.size)), ?_, ?_, ?_⟩
  · have htop : (top tree).rows = _ := rows_eq hlaid
    rw [tree_top, hevents] at htop
    exact htop.trans (hrows token)
  · have htop : (top new).rows = _ := rows_eq hlaid'
    rw [tree_top, hevents'] at htop
    rw [List.map_map, show Row.shift token.size token'.size ∘ Row.move (offset + token.size) =
      Row.move (offset + token'.size) from funext hshift]
    exact htop.trans (hrows token')
  · intro row hrow
    obtain ⟨row', -, rfl⟩ := List.mem_map.1 hrow
    exact Nat.le_add_right _ _

theorem Token.size_withText (token : Token) (text : String) :
    (token.withText text).size + token.textLen = token.size + text.utf8ByteSize := by
  rw [size_eq, size_eq]
  simp only [withText, textLen]
  omega

theorem Token.textLen_le_size (token : Token) : token.textLen ≤ token.size := by
  rw [size_eq]
  omega

/-- The text of a tree around the text of one of its tokens. -/
theorem text_eq_of_token {tree : Tree} {front back : List Event} {token : Token}
    (h : tree.events = front ++ .push token :: back) :
    tree.text = streamText front ++ token.leading.text ++ token.text ++
      (token.trailing.text ++ streamText back) := by
  rw [← streamText_events, h, ← List.singleton_append, streamText_append, streamText_append]
  simp [streamText, Event.text, Token.fullText, String.append_assoc]

/-- The bytes of a text in the middle of which something is exchanged. -/
theorem toByteArray_exchange (front old new back : String) {start stop : Nat}
    (hstart : start = front.utf8ByteSize) (hstop : stop = (front ++ old ++ back).utf8ByteSize) :
    (front ++ new ++ back).toByteArray =
      slice (front ++ old ++ back) 0 start ++ new.toByteArray ++
        slice (front ++ old ++ back) (start + old.utf8ByteSize) stop := by
  have hfront : slice (front ++ old ++ back) 0 start = front.toByteArray := by
    have hslice : slice ("" ++ front ++ (old ++ back)) 0 start = front.toByteArray :=
      slice_append _ _ _ rfl (by simpa using hstart)
    simpa [String.append_assoc] using hslice
  have hback : slice (front ++ old ++ back) (start + old.utf8ByteSize) stop = back.toByteArray := by
    have hslice : slice (front ++ old ++ back ++ "") (start + old.utf8ByteSize) stop =
        back.toByteArray :=
      slice_append _ _ _ (by simp [hstart]) (by simp [hstop, hstart])
    simpa using hslice
  rw [hfront, hback, String.toByteArray_append, String.toByteArray_append]

/-- The offset at which the text of a token starts, behind its leading trivia. -/
def Leaf.textStart (leaf : Leaf) : Nat :=
  leaf.offset + leaf.token.leading.text.utf8ByteSize

/-- All that can be seen of two trees, where the second one has another text at a token of the first
one. -/
structure Node.ExchangesText (old new : Node) (leaf : Leaf) (text : String) : Prop where
  /-- The bytes before and behind the text of the token stay as they are. -/
  text_eq : new.text.toByteArray =
    slice old.text 0 leaf.textStart ++ text.toByteArray ++
      slice old.text (leaf.textStart + leaf.token.textLen) old.byteLen
  /-- The same nodes and tokens stand at the same places, apart from the text of the token, and only
  those behind it start elsewhere. -/
  exists_rows : ∃ front back,
    old.rows = front ++ ⟨(Part.leaf leaf).path, .token leaf.token, leaf.offset⟩ :: back ∧
    new.rows = front ++ ⟨(Part.leaf leaf).path, .token (leaf.token.withText text), leaf.offset⟩ ::
      back.map (Row.shift leaf.token.textLen text.utf8ByteSize) ∧
    ∀ row ∈ back, leaf.textStart + leaf.token.textLen ≤ row.offset

/-- Trees exchange a text if their streams do. -/
theorem Node.ExchangesText.of_events {tree new : Tree} (hlaid : tree.LaidOut)
    (hlaid' : new.LaidOut) {front back : List Event} {leaf : Leaf} {text : String}
    (hevents : tree.events = front ++ .push leaf.token :: back)
    (hevents' : new.events = front ++ .push (leaf.token.withText text) :: back)
    (hafter : (Cursor.mk [] 0).after front = ⟨(Part.leaf leaf).path, leaf.offset⟩) :
    (top tree).ExchangesText (top new) leaf text where
  text_eq := by
    have hstart : leaf.textStart = (streamText front ++ leaf.token.leading.text).utf8ByteSize := by
      have hoffset := Cursor.offset_after ⟨[], 0⟩ front
      rw [hafter, Nat.zero_add] at hoffset
      rw [String.utf8ByteSize_append, utf8ByteSize_streamText, ← hoffset, Leaf.textStart]
    have hlen : (top tree).byteLen = tree.text.utf8ByteSize := hlaid.byteLen_eq
    have hold : tree.text = _ := text_eq_of_token hevents
    have hnew : new.text = _ := text_eq_of_token hevents'
    change new.text.toByteArray = slice tree.text _ _ ++ _ ++ slice tree.text _ _
    rw [hlen, hnew, hold]
    exact toByteArray_exchange _ _ _ _ hstart rfl
  exists_rows := by
    obtain ⟨rows, rest, hrows, hrows', hbehind⟩ :=
      exists_rows_of_token hlaid hlaid' hevents hevents' hafter
    have hsize := leaf.token.size_withText text
    have hparts := leaf.token.size_eq
    refine ⟨rows, rest, hrows, ?_, fun row hrow => ?_⟩
    · rw [hrows']
      congr 2
      refine List.map_congr_left fun row hrow => ?_
      have hoffset := hbehind row hrow
      simp only [Row.shift, Row.mk.injEq, true_and]
      omega
    · have hoffset := hbehind row hrow
      rw [Leaf.textStart]
      omega

/-! ### The token of the name -/

theorem Node.size_le_byteLen {node : Node} (hlaid : node.tree.LaidOut) {index : Nat} {leaf : Leaf}
    (h : node.parts[index]? = some (.leaf leaf)) : leaf.token.size ≤ node.byteLen := by
  have hsize := congrArg streamSize (events_eq_append h)
  simp only [streamSize_append, Part.events, streamSize_cons, Event.size,
    hlaid.streamSize_events] at hsize
  rw [byteLen]
  omega

namespace Named

/-- Which of the identifiers directly below it names an element: the third one of a field signature,
the first one of a variable. -/
def nameIndex : Named → Nat
  | fieldSig _ => 2
  | identifierVariable _ => 0

theorem nameToken?_eq (named : Named) :
    named.nameToken? = named.raw.identifiers[named.nameIndex]? := by
  cases named with
  | fieldSig view => rfl
  | identifierVariable view => exact List.head?_eq_getElem?

theorem getElem?_parts_of_nameToken? {named : Named} {leaf : Leaf}
    (h : named.nameToken? = some leaf) : named.raw.parts[leaf.index]? = some (.leaf leaf) := by
  rw [nameToken?_eq] at h
  exact Node.getElem?_parts_of_mem_tokens (List.mem_filter.1 (List.mem_of_getElem? h)).1

/-- An element can be renamed exactly if it has an identifier for its name. -/
theorem rename_eq_none_iff (named : Named) (origin : Nat) (newName : String) :
    named.rename origin newName = none ↔ named.raw.identifiers.length < named.nameIndex + 1 := by
  rw [rename, Option.map_eq_none_iff, nameToken?_eq, List.getElem?_eq_none_iff, Nat.lt_succ_iff]

end Named

namespace Forest

variable {forest : Forest} {node : Node} {origin : Nat} {leaf : Leaf}

/-- **A token is exchanged exactly if the new length of the whole tree fits a word.** -/
theorem Sound.exists_yields_exchange (h : forest.Sound) (hnode : forest.Holds node)
    (hfresh : origin ∉ forest.origins) (hleaf : node.parts[leaf.index]? = some (.leaf leaf))
    (newName : String) :
    ∃ result, Yields (node.withToken origin leaf.index (leaf.token.withText newName) >>=
        fun renamed => node.root.renewed origin (Node.only node (.top renamed)) [])
      (node.root.byteLen - leaf.token.textLen + newName.utf8ByteSize < wordSize) result := by
  obtain ⟨tree, htree, hroot, hwithin⟩ := hnode.exists_root_eq
  have hlaid := h.laidOut_of_holds hnode
  have hcopy := Node.yields_withToken hlaid origin leaf.index (leaf.token.withText newName)
  have hlen := Node.byteLen_treeWith hlaid hleaf origin (leaf.token.withText newName)
  have hsize := leaf.token.size_withText newName
  have htoken := Node.size_le_byteLen hlaid hleaf
  have htext := leaf.token.textLen_le_size
  have hlonger := hwithin.byteLen_le (h.laidOut htree)
  rw [hroot]
  -- The lengths of the copy and of the whole tree change by the same amount.
  have hchange : (Node.top tree).lengthWith node
      (node.treeWith origin leaf.index (leaf.token.withText newName)) =
        (Node.top tree).byteLen - leaf.token.textLen + newName.utf8ByteSize := by
    rw [Node.lengthWith]
    omega
  have hsmaller : (Node.top tree).byteLen - leaf.token.textLen + newName.utf8ByteSize < wordSize →
      (node.treeWith origin leaf.index (leaf.token.withText newName)).byteLen < wordSize := by
    intro hless
    omega
  by_cases hfits :
      (node.treeWith origin leaf.index (leaf.token.withText newName)).byteLen < wordSize
  · have hold (below : Node) (hbelow : (Node.top tree).Within below) :
        below.tree.id.origin ≠ origin :=
      (h.distinct hfresh).fresh (Holds.has ⟨tree, htree, hbelow⟩)
    obtain ⟨result, -, -, hyields⟩ := hwithin.yields_renewed_only (.refl _) (h.laidOut htree) hold
      hfits rfl []
    rw [hchange] at hyields
    exact ⟨result, hcopy.bind hsmaller fun _ => hyields⟩
  · exact ⟨tree, hcopy.bind hsmaller fun hcopied => absurd hcopied hfits⟩

/-- The stream of the new tree differs from the old one in the token of the name. -/
theorem Sound.exists_split_exchange (h : forest.Sound) (hnode : forest.Holds node)
    (hfresh : origin ∉ forest.origins) (hleaf : node.parts[leaf.index]? = some (.leaf leaf))
    {token : Token} {renamed new : Tree}
    (hcopy : node.withToken origin leaf.index token = .ok renamed)
    (hnew : node.root.renewed origin (Node.only node (.top renamed)) [] = .ok new) :
    ∃ tree front back, node.root = .top tree ∧ tree.LaidOut ∧ new.LaidOut ∧
      tree.events = front ++ .push leaf.token :: back ∧
      new.events = front ++ .push token :: back ∧
      (Cursor.mk [] 0).after front = ⟨(Part.leaf leaf).path, leaf.offset⟩ := by
  obtain ⟨tree, htree, hroot, hwithin⟩ := hnode.exists_root_eq
  have hlaid := h.laidOut htree
  have hready := h.transformable_only hfresh hnode hcopy
  have hdistinct := h.distinct hfresh
  have hevents := hready.events_eq hdistinct hnew
  obtain rfl := (Node.yields_withToken (hwithin.laidOut hlaid) origin leaf.index token).eq_of_eq_ok
    hcopy
  obtain ⟨front, back, hold, hwith, hafter⟩ := hwithin.exists_split_only (.refl _) hlaid
    (node.treeWith origin leaf.index token)
  obtain ⟨hlt, -⟩ := List.getElem?_eq_some_iff.1 hleaf
  rw [Node.length_parts] at hlt
  rw [hroot, hwith, Node.events_treeWith hlt] at hevents
  rw [Node.tree_top, Node.events_eq_append hleaf] at hold
  refine ⟨tree, front ++ node.before leaf.index, node.behind leaf.index ++ back, hroot, hlaid,
    (hready.laidOut_madeBy hdistinct hnew).1, ?_, ?_, ?_⟩
  · rw [hold]
    simp [Part.events]
  · rw [hevents]
    simp
  · have hdown := Node.after_before (hwithin.laidOut hlaid) hleaf
    rw [Cursor.after_append]
    rw [Node.path_top, Node.offset_top] at hafter
    rw [hafter, hdown, Part.path, (Node.parent_eq_of_getElem?_parts hleaf).1]
    rfl

/-- **Renaming changes the name and nothing else.** An element of a run can be renamed exactly if it
has as many identifiers as its kind needs. Then it fails exactly if the new length of the whole tree
does not fit a word, and otherwise gives a tree in which the text of the name is exchanged. -/
theorem Reachable.rename_exchanges_name (h : forest.Reachable) {named : Named}
    (hnamed : forest.Holds named.raw) (hfresh : origin ∉ forest.origins) (newName : String) :
    (named.rename origin newName = none ↔
      named.raw.identifiers.length < named.nameIndex + 1) ∧
    ∀ leaf, named.raw.identifiers[named.nameIndex]? = some leaf →
      ∃ outcome, named.rename origin newName = some outcome ∧
        ((∃ overflow, outcome.result = .error overflow) ↔
          wordSize ≤ named.raw.root.byteLen - leaf.token.textLen + newName.utf8ByteSize) ∧
        ∀ root, outcome.result = .ok root →
          (∃ new, root = .top new) ∧ named.raw.root.ExchangesText root leaf newName := by
  refine ⟨named.rename_eq_none_iff origin newName, fun leaf hname => ?_⟩
  have hname' : named.nameToken? = some leaf := by rw [Named.nameToken?_eq, hname]
  have hleaf := Named.getElem?_parts_of_nameToken? hname'
  have hrename := Named.rename_eq hname' origin newName
  obtain ⟨result, hyields⟩ := h.sound.exists_yields_exchange hnamed hfresh hleaf newName
  refine ⟨_, hrename, ?_, ?_⟩
  · have hresult := (hyields.map Node.top).exists_error_iff
    rw [Nat.not_lt, bind_assoc] at hresult
    rw [Outcome.result_bind, Outcome.result_of]
    simpa only [Node.result_transform] using hresult
  · intro root hok
    obtain ⟨leaf', renamed, new, hleaf', hcopy, hnew, rfl⟩ := Named.exists_of_rename hrename hok
    obtain rfl : leaf = leaf' := Option.some_inj.1 (hname'.symm.trans hleaf')
    obtain ⟨tree, front, back, hroot, hlaid, hlaid', hevents, hevents', hafter⟩ :=
      h.sound.exists_split_exchange hnamed hfresh hleaf hcopy hnew
    rw [hroot]
    exact ⟨⟨new, rfl⟩, .of_events hlaid hlaid' hevents hevents' hafter⟩

/-- The second variable of `ü .ü `. -/
def secondVariable : Named :=
  .identifierVariable ⟨.inner (.top sharingTree) 2 4 variableTree, rfl⟩

/-- Only the second of two variables that share their tree is renamed. -/
theorem rename_second_variable :
    ((empty.add 0 dottedTree).add 1 sharingTree).Reachable ∧
    ((empty.add 0 dottedTree).add 1 sharingTree).Holds secondVariable.raw ∧
    2 ∉ ((empty.add 0 dottedTree).add 1 sharingTree).origins ∧
    ∃ leaf outcome root, secondVariable.raw.identifiers[0]? = some leaf ∧ leaf.offset = 4 ∧
      secondVariable.rename 2 "r10" = some outcome ∧ outcome.result = .ok root ∧
      root.text = "ü .r10 " ∧ (Node.top sharingTree).ExchangesText root leaf "r10" := by
  have hholds : ((empty.add 0 dottedTree).add 1 sharingTree).Holds secondVariable.raw :=
    ⟨sharingTree, .head _, .of_mem_children (.tail _ (.head _))⟩
  have hfresh : 2 ∉ ((empty.add 0 dottedTree).add 1 sharingTree).origins := by decide
  obtain ⟨-, hrename⟩ := Reachable.rename_exchanges_name reachable_sharing hholds hfresh "r10"
  obtain ⟨outcome, hsome, -, hchanges⟩ := hrename _ rfl
  cases hsome
  exact ⟨reachable_sharing, hholds, hfresh, _, _, _, rfl, rfl, rfl, rfl, rfl, (hchanges _ rfl).2⟩

end Forest

end LosslessTree
