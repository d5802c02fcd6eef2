import Mathlib.Data.List.Chain
import LosslessTree.Proofs.Visitor.Untyped
import LosslessTree.Visitor.Recording

/-!
# The tokens of a subtree

The first and the last token of a subtree are found by going down and backing out of nodes without
tokens, each from its own side. A visitor that does nothing but record tokens is led to all of them
from left to right. The two searches find the ends of what the visitor records.

Nodes without tokens are empty, and the tokens tile the text of the subtree: they begin where it
begins, follow one another without a gap, and end where it ends.

## Main definitions

* `Node.allTokens`: the tokens of a subtree in textual order.

## Main results

* `Node.firstToken?_eq_head?`, `Node.lastToken?_eq_getLast?`: the searches find the ends of the
  list.
* `Recorder.tokens_accept`: the visitor records the list.
* `Node.tiles_allTokens`: the tokens tile the subtree.
* `Forest.Reachable.tokens_reported`: all of this for the nodes of a run.
-/

namespace LosslessTree

/-! ### Parts without a gap -/

namespace Tiles

variable {start middle stop : Nat} {part : Part} {parts front back : List Part}

theorem append (h : Tiles start middle front) (h' : Tiles middle stop back) :
    Tiles start stop (front ++ back) := by
  induction front generalizing start with
  | nil =>
    obtain rfl : start = middle := h
    exact h'
  | cons part rest ih =>
    obtain ⟨hoffset, length, hlength, hrest⟩ := h
    exact ⟨hoffset, length, hlength, ih hrest⟩

/-- Tiles may be cut into smaller ones. -/
theorem flatMap {pieces : Part → List Part} (h : Tiles start stop parts)
    (hpieces : ∀ part ∈ parts, ∀ length, part.byteLen = .ok length →
      Tiles part.offset (part.offset + length) (pieces part)) :
    Tiles start stop (parts.flatMap pieces) := by
  induction parts generalizing start with
  | nil => exact h
  | cons part rest ih =>
    obtain ⟨rfl, length, hlength, hrest⟩ := h
    rw [List.flatMap_cons]
    exact (hpieces part (.head _) length hlength).append
      (ih hrest fun other hmem => hpieces other (.tail _ hmem))

theorem offset_eq_of_head? (h : Tiles start stop parts) (hhead : parts.head? = some part) :
    part.offset = start := by
  cases parts with
  | nil => cases hhead
  | cons first rest =>
    cases hhead
    exact h.1

/-- The last tile ends where the tiles end. -/
theorem exists_stop_of_getLast? (h : Tiles start stop parts) (hlast : parts.getLast? = some part) :
    ∃ length, part.byteLen = .ok length ∧ part.offset + length = stop := by
  induction parts generalizing start with
  | nil => cases hlast
  | cons first rest ih =>
    obtain ⟨rfl, length, hlength, hrest⟩ := h
    cases rest with
    | nil =>
      cases hlast
      exact ⟨length, hlength, hrest⟩
    | cons second rest => exact ih hrest (by rwa [List.getLast?_cons_cons] at hlast)

/-- Each tile starts where the one before it ends. -/
theorem isChain (h : Tiles start stop parts) :
    parts.IsChain fun before after =>
      ∃ length, before.byteLen = .ok length ∧ after.offset = before.offset + length := by
  induction parts generalizing start with
  | nil => exact .nil
  | cons first rest ih =>
    obtain ⟨rfl, length, hlength, hrest⟩ := h
    cases rest with
    | nil => exact .singleton first
    | cons second rest => exact .cons_cons ⟨length, hlength, hrest.1⟩ (ih hrest)

end Tiles

/-! ### The tokens in textual order -/

namespace Node

variable {node : Node}

/-- The tokens of a subtree in textual order. -/
def allTokens (node : Node) : List Leaf :=
  node.allParts.filterMap Part.leaf?

/-- The tokens of a part: those of the subtree, or the token itself. -/
def partTokens : Part → List Leaf :=
  Part.elim allTokens fun leaf => [leaf]

theorem allTokens_eq (node : Node) : node.allTokens = node.parts.flatMap partTokens := by
  have hlisted : (fun part => (listed part).filterMap Part.leaf?) = partTokens := by
    funext part
    cases part <;> rfl
  rw [allTokens, allParts_eq_cons, List.filterMap_cons, List.filterMap_flatMap, hlisted]
  rfl

/-- **The first token is the head of the list**: a search from the left backs out of subtrees
without tokens. -/
theorem firstToken?_eq_head? (node : Node) : node.firstToken? = node.allTokens.head? := by
  induction node using Node.induction with
  | step node ih =>
    rw [firstToken?_eq, allTokens_eq, List.head?_flatMap, ← List.head?_filterMap,
      ← List.head?_filterMap]
    refine congrArg List.head? (List.filterMap_congr fun part hpart => ?_)
    cases part with
    | leaf leaf => rfl
    | node child => exact ih child (mem_children.2 hpart)

/-- **The last token is the end of the list**: a search that keeps what it found last does not see
them either. -/
theorem lastToken?_eq_getLast? (node : Node) : node.lastToken? = node.allTokens.getLast? := by
  induction node using Node.induction with
  | step node ih =>
    rw [lastToken?_eq, allTokens_eq, List.getLast?_flatMap, ← List.getLast?_filterMap]
    refine congrArg List.getLast? (List.filterMap_congr fun part hpart => ?_)
    cases part with
    | leaf leaf => rfl
    | node child => exact ih child (mem_children.2 hpart)

/-- **The tokens tile the subtree.** -/
theorem tiles_allTokens (h : node.tree.LaidOut) :
    Tiles node.offset (node.offset + node.byteLen) (node.allTokens.map Part.leaf) := by
  induction node using Node.induction with
  | step node ih =>
    rw [allTokens_eq, List.map_flatMap]
    refine (tiles_parts h).flatMap fun part hpart length hlength => ?_
    cases part with
    | leaf leaf => exact ⟨rfl, length, hlength, rfl⟩
    | node child =>
      cases hlength
      have hchild := mem_children.2 hpart
      exact ih child hchild ((Within.of_mem_children hchild).laidOut h)

end Node

/-! ### What a visitor reports -/

/-- What the visitor of tokens keeps of a part. -/
def Recorder.keepToken : Part → Array Record → Array Record :=
  Part.elim (fun _ => id) fun leaf records => records.push (.token leaf)

/-- **The visitor of tokens records the tokens of the subtree**, in order. -/
theorem Recorder.tokens_accept (node : Node) :
    (Recorder.tokens.accept node).run.state.toList = node.allTokens.map Record.token := by
  have hrecords : Recorder.tokens.Records keepToken :=
    ⟨rfl, fun _ _ _ => rfl, fun _ _ => rfl⟩
  have hfold (parts : List Part) (records : Array Record) :
      (parts.foldl (fun state part => keepToken part state) records).toList =
        records.toList ++ (parts.filterMap Part.leaf?).map Record.token := by
    induction parts generalizing records with
    | nil => exact (List.append_nil _).symm
    | cons part rest ih =>
      rw [List.foldl_cons, ih]
      cases part <;> simp [keepToken, Part.elim, Part.leaf?, List.filterMap_cons]
  rw [Visit.run, hrecords.accept_eq, Visitor.state_foldl_recorded, hfold]
  rfl

/-- **The first and the last token are the ends of what a visitor reports.** A visitor that records
tokens and does nothing else is led to a node of a run. The first and the last token of the node are
the first and the last one that it records, and they are missing exactly if it records nothing. The
first token starts where the node starts, the last one ends where the node ends, a node without
tokens is empty, and each token starts where the one recorded before it ends. -/
theorem Forest.Reachable.tokens_reported {forest : Forest} (h : forest.Reachable) {node : Node}
    (hnode : forest.Holds node) :
    ∃ tokens : List Leaf,
      (Recorder.tokens.accept node).run.state.toList = tokens.map Record.token ∧
      node.firstToken? = tokens.head? ∧ (node.firstToken? == tokens.head?) = true ∧
      node.lastToken? = tokens.getLast? ∧ (node.lastToken? == tokens.getLast?) = true ∧
      (node.firstToken? = none ↔ tokens = []) ∧ (node.lastToken? = none ↔ tokens = []) ∧
      (∀ first, node.firstToken? = some first → first.offset = node.offset) ∧
      (∀ last, node.lastToken? = some last → ∃ length, last.byteLen = .ok length ∧
        last.offset + length = node.offset + node.byteLen) ∧
      (tokens = [] → node.byteLen = 0) ∧
      tokens.IsChain fun before after =>
        ∃ length, before.byteLen = .ok length ∧ after.offset = before.offset + length := by
  have htiles := Node.tiles_allTokens (h.sound.laidOut_of_holds hnode)
  rw [node.firstToken?_eq_head?, node.lastToken?_eq_getLast?]
  refine ⟨node.allTokens, Recorder.tokens_accept node, rfl, BEq.rfl, rfl, BEq.rfl,
    List.head?_eq_none_iff, List.getLast?_eq_none_iff, fun first hfirst => ?_,
    fun last hlast => ?_, fun hnone => ?_, ?_⟩
  · have hhead : (node.allTokens.map Part.leaf).head? = some (.leaf first) := by
      rw [List.head?_map, hfirst, Option.map_some]
    exact htiles.offset_eq_of_head? hhead
  · have hend : (node.allTokens.map Part.leaf).getLast? = some (.leaf last) := by
      rw [List.getLast?_map, hlast, Option.map_some]
    exact htiles.exists_stop_of_getLast? hend
  · rw [hnone] at htiles
    have hempty : node.offset = node.offset + node.byteLen := htiles
    omega
  · exact (List.isChain_map Part.leaf).1 htiles.isChain

namespace Forest

/-- A tree with nodes without tokens in front, between and behind its tokens `x ` and `=`. -/
def hollowTree : Tree :=
  ⟨⟨0, []⟩, .assignStatement, 3,
    [.node 0 ⟨⟨0, [0]⟩, .lvalue, 0, [.node 0 ⟨⟨0, [0, 0]⟩, .identifierVariable, 0, []⟩]⟩,
      .token 0 ⟨0, [1]⟩ ((Token.identifier "x").withTrailing ⟨[.spaces 1]⟩),
      .node 2 ⟨⟨0, [2]⟩, .fieldSig, 0, []⟩,
      .token 2 ⟨0, [3]⟩ (.punctuation .equals),
      .node 3 ⟨⟨0, [4]⟩, .lvalue, 0, []⟩]⟩

/-- The searches pass by the nodes without tokens on both sides. -/
theorem tokens_of_hollow :
    (empty.add 0 hollowTree).Reachable ∧ (empty.add 0 hollowTree).Holds (.top hollowTree) ∧
    ∃ first last, (Recorder.tokens.accept (.top hollowTree)).run.state.toList =
        [.token first, .token last] ∧
      (Node.top hollowTree).firstToken? = some first ∧
      (Node.top hollowTree).lastToken? = some last ∧ first.offset = 0 ∧
      (∃ length, first.byteLen = .ok length ∧ last.offset = first.offset + length) ∧
      ∃ length, last.byteLen = .ok length ∧ last.offset + length = 3 := by
  have hreachable : (empty.add 0 hollowTree).Reachable := reachable_of_build rfl
  have hholds := holds_top empty 0 hollowTree
  obtain ⟨tokens, hreported, hfirst, -, hlast, -, -, -, hstart, hstop, -, hchain⟩ :=
    hreachable.tokens_reported hholds
  obtain ⟨first, last, hrecords⟩ : ∃ first last,
      (Recorder.tokens.accept (.top hollowTree)).run.state.toList =
        [first, last].map Record.token := ⟨_, _, rfl⟩
  obtain rfl : [first, last] = tokens :=
    List.map_injective_iff.2 (fun _ _ => Record.token.inj) (hrecords.symm.trans hreported)
  exact ⟨hreachable, hholds, first, last, hrecords, hfirst, hlast, hstart first hfirst,
    List.isChain_pair.1 hchain, hstop last hlast⟩

end Forest

end LosslessTree
