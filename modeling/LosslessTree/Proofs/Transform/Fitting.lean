import Mathlib.Algebra.Order.BigOperators.Group.List
import Mathlib.Algebra.Order.Ring.Nat
import LosslessTree.Proofs.Transform.Order
import LosslessTree.Proofs.Transform.Rebuild

/-!
# When a transformation fits

A transformation puts each new child into the copy of its node as soon as it is known, and adds up
the whole copy each time. So the lengths that have to fit a word are those of copies whose front is
new and whose back is still old. The new tree may be short enough and yet not come out: a child
that has grown meets an old sibling behind it that would have shrunk.

The lengths on the way can be told without the transformation, from the streams with replacements.
They decide whether it comes to its end, wherever its result is put and whatever number it has.

## Main definitions

* `Node.sizeAfter`, `Node.Realizes`: the length of a subtree with replacements, and a tree with its
  stream.
* `Node.mixedSize`: the length of parts of which those in front are new and the others are old.
* `Node.FitsOnTheWay`: the lengths of all copies fit a word.

## Main results

* `Node.exists_yields_of_keep`: a node that is kept has a new tree exactly if its copies fit.
* `Node.Transformable.exists_renewed_iff`: so has every node, if all copies below it fit too.
* `Node.fitsOnTheWay_of_pairwise`: no copy is too long if no child grows before one that shrinks.
* `Forest.Reachable.transform_ok_iff_fitsOnTheWay`: when transformations come to their end.
* `Forest.exchange_shortLong_overflows`: a transformation that does not, although its result fits.
-/

namespace LosslessTree

/-- The exact length of a part in bytes. -/
def Part.size : Part → Nat
  | node n => n.byteLen
  | leaf l => l.token.size

namespace Node

variable {kept : Tree → Prop} {origin : Nat} {rule : Node → Answer} {node : Node}
  {position : List Nat}

/-! ### Lengths with replacements -/

/-- The length of a subtree in which every topmost node that the rule replaces has given way to its
replacement. -/
def sizeAfter (rule : Node → Answer) (node : Node) : Nat :=
  streamSize (node.eventsWith rule)

/-- The length of a part with replacements. -/
def partSizeAfter (rule : Node → Answer) : Part → Nat :=
  Part.elim (sizeAfter rule) fun leaf => leaf.token.size

/-- The tree is laid out and has the stream of a subtree with replacements. -/
structure Realizes (rule : Node → Answer) (node : Node) (tree : Tree) : Prop where
  laidOut : tree.LaidOut
  events_eq : tree.events = node.eventsWith rule

theorem Realizes.byteLen_eq {tree : Tree} (h : node.Realizes rule tree) :
    tree.byteLen = node.sizeAfter rule := by
  rw [sizeAfter, ← h.events_eq, h.laidOut.streamSize_events]

/-- The new tree of a node has the stream with replacements. -/
theorem Transformable.realizes (h : node.Transformable kept origin rule position)
    (hdistinct : Distinct kept origin) {tree : Tree}
    (hok : node.renewed origin rule position = .ok tree) : node.Realizes rule tree :=
  ⟨(h.laidOut_madeBy hdistinct hok).1, h.events_eq hdistinct hok⟩

/-- A node that is kept is as long as its parts are with replacements. -/
theorem sizeAfter_of_keep (h : rule node = .keep) :
    node.sizeAfter rule = (node.parts.map (partSizeAfter rule)).sum := by
  have hparts (parts : List Part) :
      streamSize (parts.flatMap (partEventsWith rule)) = (parts.map (partSizeAfter rule)).sum := by
    induction parts with
    | nil => rfl
    | cons part rest ih =>
      rw [List.flatMap_cons, streamSize_append, ih, List.map_cons, List.sum_cons]
      cases part <;> rfl
  rw [sizeAfter, eventsWith_of_keep h, streamSize_append, streamSize_cons, hparts]
  simp [Event.size]

/-- The length of parts when the first `count` of them are as they are with replacements, and the
others as they were. -/
def mixedSize (rule : Node → Answer) (parts : List Part) (count : Nat) : Nat :=
  ((parts.take count).map (partSizeAfter rule)).sum + ((parts.drop count).map Part.size).sum

theorem mixedSize_zero (rule : Node → Answer) (parts : List Part) :
    mixedSize rule parts 0 = (parts.map Part.size).sum := by
  simp [mixedSize]

theorem mixedSize_cons_succ (rule : Node → Answer) (part : Part) (rest : List Part) (count : Nat) :
    mixedSize rule (part :: rest) (count + 1) =
      partSizeAfter rule part + mixedSize rule rest count := by
  simp [mixedSize, Nat.add_assoc]

/-- All mixed lengths stay below a limit if the old one does, and so do those in which the first
part is renewed. -/
theorem forall_mixedSize_cons_lt_iff (rule : Node → Answer) (part : Part) (rest : List Part)
    (start limit : Nat) :
    (∀ count, start + mixedSize rule (part :: rest) count < limit) ↔
      start + mixedSize rule (part :: rest) 0 < limit ∧
        ∀ count, start + partSizeAfter rule part + mixedSize rule rest count < limit := by
  constructor
  · intro hall
    refine ⟨hall 0, fun count => ?_⟩
    have hnext := hall (count + 1)
    rw [mixedSize_cons_succ] at hnext
    omega
  · rintro ⟨hzero, hrest⟩ count
    cases count with
    | zero => exact hzero
    | succ count =>
      have hnext := hrest count
      rw [mixedSize_cons_succ]
      omega

/-- The parts of a node are as long as its children. -/
theorem sum_size_partsFrom (node : Node) (index : Nat) (children : List Child) :
    ((node.partsFrom index children).map Part.size).sum = childrenSize children := by
  induction children generalizing index with
  | nil => rfl
  | cons child rest ih =>
    rw [partsFrom_cons, List.map_cons, List.sum_cons, ih, childrenSize]
    cases child <;> rfl

/-! ### One node -/

/-- What is known of the new tree of a child before it is put into a copy: it is as long as the
child is with replacements, and it is the old tree if it has its identity. -/
structure Renewal (rule : Node → Answer) (child : Node) (tree : Tree) : Prop where
  byteLen_eq : tree.byteLen = child.sizeAfter rule
  eq_of_id_eq : tree.id = child.tree.id → tree = child.tree

/-- All nodes among some parts have new trees. -/
def Renewable (origin : Nat) (rule : Node → Answer) (position : List Nat) (parts : List Part) :
    Prop :=
  ∀ child, .node child ∈ parts →
    ∃ tree, child.renewed origin rule (position ++ [child.index]) = .ok tree ∧
      Renewal rule child tree

theorem renewPart_of_id_eq {child : Node} {tree : Tree} (copy : Option Draft)
    (hok : child.renewed origin rule (position ++ [child.index]) = .ok tree)
    (h : tree.id = child.tree.id) :
    node.renewPart origin rule position copy (.node child) = .ok copy := by
  rw [renewPart, hok]
  exact if_pos h

theorem renewPart_of_id_ne {child : Node} {tree : Tree} (copy : Option Draft)
    (hok : child.renewed origin rule (position ++ [child.index]) = .ok tree)
    (h : tree.id ≠ child.tree.id) :
    node.renewPart origin rule position copy (.node child) =
      (copy.getD node.tree.toDraft).replaceChild child.index (.node 0 tree) >>= fun draft =>
        .ok (some draft) := by
  rw [renewPart, hok]
  exact if_neg h

/-- One part: the copy with the part renewed is made exactly if it fits a word. -/
theorem Copies.exists_yields_renewPart {copy : Option Draft} {before rest : List Child}
    {child : Child} (h : Copies node copy (before ++ child :: rest))
    (hrenewable : Renewable origin rule position [node.part before.length child]) :
    ∃ next new, new.size = partSizeAfter rule (node.part before.length child) ∧
      Yields (node.renewPart origin rule position copy (node.part before.length child))
        (childrenSize (before ++ new :: rest) < wordSize) next ∧
      (childrenSize (before ++ new :: rest) < wordSize →
        Copies node next (before ++ new :: rest)) := by
  cases child with
  | token offset id token => exact ⟨copy, .token offset id token, rfl, .ok h.fits copy, fun _ => h⟩
  | node offset old =>
    obtain ⟨tree, hok, hrenewal⟩ := hrenewable _ (.head _)
    by_cases hsame : tree.id = old.id
    · -- the new tree is the old one, and the copy stays as it is
      obtain rfl : tree = old := hrenewal.eq_of_id_eq hsame
      refine ⟨copy, .node offset tree, hrenewal.byteLen_eq, ?_, fun _ => h⟩
      rw [part, renewPart_of_id_eq copy hok hsame]
      exact .ok h.fits copy
    · have hyields := Draft.yields_replaceChild_ofChildren node.kind
        (before ++ .node offset old :: rest) before.length (.node 0 tree)
      have hset : (before ++ .node offset old :: rest).set before.length (.node 0 tree) =
          before ++ .node 0 tree :: rest := by
        simp
      rw [hset, ← h.draft_eq] at hyields
      refine ⟨some (.ofChildren node.kind (before ++ .node 0 tree :: rest)), .node 0 tree,
        hrenewal.byteLen_eq, ?_, fun hfits => ⟨hfits, rfl⟩⟩
      rw [part, renewPart_of_id_ne copy hok hsame]
      exact hyields.map some

/-- The loop over the parts: those behind `before` are renewed exactly if all copies on the way fit
a word. -/
theorem Copies.exists_yields_foldlM (rest before : List Child) {copy : Option Draft}
    (hcopies : Copies node copy (before ++ rest))
    (hrenewable : Renewable origin rule position (node.partsFrom before.length rest)) :
    ∃ last, Yields
      ((node.partsFrom before.length rest).foldlM (node.renewPart origin rule position) copy)
      (∀ count, childrenSize before + mixedSize rule (node.partsFrom before.length rest) count <
        wordSize) last := by
  induction rest generalizing before copy with
  | nil =>
    refine ⟨copy, .ok (fun count => ?_) copy⟩
    simpa [partsFrom, mixedSize] using hcopies.fits
  | cons child rest ih =>
    rw [partsFrom_cons] at hrenewable ⊢
    obtain ⟨next, new, hsize, hyields, hnext⟩ := hcopies.exists_yields_renewPart
      fun child hchild => hrenewable child (List.mem_cons.2 (.inl (List.mem_singleton.1 hchild)))
    have hlength : (before ++ [new]).length = before.length + 1 := by simp
    have hsize' : childrenSize (before ++ new :: rest) = childrenSize before +
        mixedSize rule (node.part before.length child :: node.partsFrom (before.length + 1) rest)
          1 := by
      rw [mixedSize_cons_succ, mixedSize_zero, sum_size_partsFrom, ← hsize, childrenSize_append,
        childrenSize]
    rw [List.foldlM_cons]
    by_cases hfits : childrenSize (before ++ new :: rest) < wordSize
    · obtain ⟨last, hlast⟩ := ih (before ++ [new]) (by simpa using hnext hfits)
        (by rw [hlength]; exact fun child hmem => hrenewable child (.tail _ hmem))
      have hmoved : childrenSize (before ++ [new]) =
          childrenSize before + partSizeAfter rule (node.part before.length child) := by
        simp [childrenSize, hsize]
      -- the copy in which nothing behind `before` is renewed yet
      have hold : childrenSize before + mixedSize rule (node.part before.length child ::
          node.partsFrom (before.length + 1) rest) 0 < wordSize := by
        rw [mixedSize_zero, ← partsFrom_cons, sum_size_partsFrom, ← childrenSize_append]
        exact hcopies.fits
      rw [hlength, hmoved] at hlast
      rw [forall_mixedSize_cons_lt_iff, and_iff_right hold]
      exact ⟨last, hyields.bind (fun _ => hfits) fun _ => hlast⟩
    · refine ⟨copy, hyields.bind (fun hall => ?_) fun hfits' => absurd hfits' hfits⟩
      rw [hsize']
      exact hall 1

/-- **A node that is kept has a new tree exactly if its copies fit a word**, provided that its
children have new trees. -/
theorem exists_yields_of_keep (hrule : rule node = .keep) (hlaid : node.tree.LaidOut)
    (hrenewable : Renewable origin rule position node.parts) :
    ∃ tree, Yields (node.renewed origin rule position)
      (∀ count, mixedSize rule node.parts count < wordSize) tree := by
  have hstart : Copies node none ([] ++ node.tree.children) :=
    ⟨hlaid.childrenSize_eq ▸ hlaid.byteLen_lt, hlaid.toDraft_eq⟩
  obtain ⟨last, hlast⟩ := hstart.exists_yields_foldlM node.tree.children [] hrenewable
  simp only [childrenSize, Nat.zero_add] at hlast
  rw [renewed_of_keep hrule]
  exact ⟨_, hlast.map _⟩

/-! ### All nodes -/

/-- The copies of all nodes that the rule is asked about and keeps fit a word, however many of
their parts have been renewed. -/
def FitsOnTheWay (rule : Node → Answer) (node : Node) : Prop :=
  ∀ asked ∈ node.entered fun below => (rule below).replaces, rule asked = .keep →
    ∀ count, mixedSize rule asked.parts count < wordSize

theorem fitsOnTheWay_of_replace {replacement : Node} (h : rule node = .replace replacement) :
    node.FitsOnTheWay rule := by
  intro asked hasked hkeep
  rcases mem_entered_cases.1 hasked with rfl | ⟨hskip, -⟩
  · rw [h] at hkeep
    cases hkeep
  · simp [h, Answer.replaces] at hskip

theorem fitsOnTheWay_of_keep (h : rule node = .keep) :
    node.FitsOnTheWay rule ↔ (∀ count, mixedSize rule node.parts count < wordSize) ∧
      ∀ child ∈ node.children, child.FitsOnTheWay rule := by
  have hasked : (rule node).replaces = false := Answer.replaces_eq_false_iff.2 h
  constructor
  · intro hfits
    refine ⟨hfits node (mem_entered_cases.2 (.inl rfl)) h, fun child hchild below hbelow => ?_⟩
    exact hfits below (mem_entered_cases.2 (.inr ⟨hasked, child, hchild, hbelow⟩))
  · rintro ⟨hnode, hchildren⟩ asked hmem hkeep
    rcases mem_entered_cases.1 hmem with rfl | ⟨-, child, hchild, hbelow⟩
    · exact hnode
    · exact hchildren child hchild asked hbelow hkeep

namespace Transformable

theorem renewal (h : node.Transformable kept origin rule position)
    (hdistinct : Distinct kept origin) {tree : Tree}
    (hok : node.renewed origin rule position = .ok tree) : Renewal rule node tree where
  byteLen_eq := (h.realizes hdistinct hok).byteLen_eq
  eq_of_id_eq hsame := hdistinct.eq_of_madeBy (h.laidOut_madeBy hdistinct hok).2 h.old hsame

/-- **A node has a new tree exactly if all copies fit a word.** Neither the number of the
transformation nor the place of the node in the result matters. -/
theorem exists_renewed_iff (h : node.Transformable kept origin rule position)
    (hdistinct : Distinct kept origin) :
    (∃ tree, node.renewed origin rule position = .ok tree) ↔ node.FitsOnTheWay rule := by
  induction node using Node.induction generalizing position with
  | step node ih =>
    cases hanswer : rule node with
    | replace replacement =>
      have hok : node.renewed origin rule position = .ok replacement.tree :=
        renewed_of_replace hanswer
      exact iff_of_true ⟨_, hok⟩ (fitsOnTheWay_of_replace hanswer)
    | keep =>
      have hready (child : Node) (hchild : child ∈ node.children) :
          child.Transformable kept origin rule (position ++ [child.index]) :=
        h.child hdistinct.closed hchild
      -- With new trees for all children only the copies of the node itself are left to consider.
      have hnode (hall : ∀ child ∈ node.children,
          ∃ tree, child.renewed origin rule (position ++ [child.index]) = .ok tree) :
          ∃ tree, Yields (node.renewed origin rule position)
            (∀ count, mixedSize rule node.parts count < wordSize) tree := by
        refine exists_yields_of_keep hanswer h.laidOut fun child hmem => ?_
        have hchild := mem_children.2 hmem
        obtain ⟨tree, hok⟩ := hall child hchild
        exact ⟨tree, hok, (hready child hchild).renewal hdistinct hok⟩
      rw [fitsOnTheWay_of_keep hanswer]
      constructor
      · rintro ⟨tree, hok⟩
        have hall (child : Node) (hchild : child ∈ node.children) :=
          exists_renewed_child hanswer hok hchild
        obtain ⟨_, hyields⟩ := hnode hall
        exact ⟨hyields.of_eq_ok hok, fun child hchild =>
          (ih child hchild (hready child hchild)).1 (hall child hchild)⟩
      · rintro ⟨hfits, hchildren⟩
        obtain ⟨tree, hyields⟩ := hnode fun child hchild =>
          (ih child hchild (hready child hchild)).2 (hchildren child hchild)
        exact ⟨tree, hyields.eq_ok hfits⟩

end Transformable

/-! ### Growing before shrinking -/

/-- With replacements, no node that the rule is asked about is longer than the whole. -/
theorem sizeAfter_le_of_mem_entered {below : Node}
    (h : below ∈ node.entered fun below => (rule below).replaces) :
    below.sizeAfter rule ≤ node.sizeAfter rule := by
  induction node using Node.induction with
  | step node ih =>
    rcases mem_entered_cases.1 h with rfl | ⟨hkeep, child, hchild, hbelow⟩
    · exact Nat.le_refl _
    · refine (ih child hchild hbelow).trans ?_
      rw [sizeAfter_of_keep (Answer.replaces_eq_false_iff.1 hkeep)]
      exact List.le_sum_of_mem (List.mem_map_of_mem (f := partSizeAfter rule)
        (mem_children.1 hchild))

/-- If no part that grows stands before one that shrinks, then parts of which some are renewed are
not longer than they were before and will be in the end. -/
theorem mixedSize_le_max {parts : List Part}
    (h : parts.Pairwise fun before after =>
      partSizeAfter rule before ≤ before.size ∨ after.size ≤ partSizeAfter rule after)
    (count : Nat) :
    mixedSize rule parts count ≤
      max (parts.map Part.size).sum (parts.map (partSizeAfter rule)).sum := by
  have hsum (f : Part → Nat) : (parts.map f).sum =
      ((parts.take count).map f).sum + ((parts.drop count).map f).sum := by
    rw [← List.sum_append, ← List.map_append, List.take_append_drop]
  rw [← List.take_append_drop count parts, List.pairwise_append] at h
  rw [mixedSize, hsum, hsum]
  by_cases hfront : ∀ part ∈ parts.take count, partSizeAfter rule part ≤ part.size
  · have hle := List.sum_le_sum hfront
    omega
  · -- some part in front grows, so none behind it shrinks
    push Not at hfront
    obtain ⟨grown, hgrown, hlt⟩ := hfront
    have hle : ((parts.drop count).map Part.size).sum ≤
        ((parts.drop count).map (partSizeAfter rule)).sum :=
      List.sum_le_sum fun part hpart => (h.2.2 grown hgrown part hpart).resolve_left (by omega)
    omega

/-- **No copy is too long if no child grows before one that shrinks**, and the result fits. -/
theorem fitsOnTheWay_of_pairwise (hlaid : node.tree.LaidOut)
    (hfits : node.sizeAfter rule < wordSize)
    (h : ∀ asked ∈ node.entered fun below => (rule below).replaces, rule asked = .keep →
      asked.children.Pairwise fun before after =>
        before.sizeAfter rule ≤ before.byteLen ∨ after.byteLen ≤ after.sizeAfter rule) :
    node.FitsOnTheWay rule := by
  intro asked hasked hkeep count
  have hparts : asked.parts.Pairwise fun before after =>
      partSizeAfter rule before ≤ before.size ∨ after.size ≤ partSizeAfter rule after := by
    refine (List.pairwise_filterMap.1 (h asked hasked hkeep)).imp fun {before after} hpair => ?_
    -- tokens neither grow nor shrink
    cases before with
    | leaf leaf => exact .inl (Nat.le_refl _)
    | node child =>
      cases after with
      | leaf leaf => exact .inr (Nat.le_refl _)
      | node child' => exact hpair child rfl child' rfl
  have hlaid' : asked.tree.LaidOut := (within_of_mem_entered hasked).laidOut hlaid
  have hold : (asked.parts.map Part.size).sum = asked.byteLen := by
    rw [parts_eq_partsFrom, sum_size_partsFrom, hlaid'.childrenSize_eq]
    rfl
  have hless : asked.byteLen < wordSize := hlaid'.byteLen_lt
  have hnew := sizeAfter_le_of_mem_entered hasked
  have hmax := mixedSize_le_max hparts count
  rw [hold, ← sizeAfter_of_keep hkeep] at hmax
  omega

end Node

/-- **When transformations come to their end.** A node of a run is transformed by a rule that
answers with nodes of the run. This succeeds exactly if, for each node that the rule is asked about
and keeps, every copy of it fits a word in which some parts in front are new and the others are
still old. The result is then as long as the subtree is with all its replacements. That this length
fits is enough if there is no child that grows before a sibling that shrinks. -/
theorem Forest.Reachable.transform_ok_iff_fitsOnTheWay {forest : Forest} (h : forest.Reachable)
    {node : Node} (hnode : forest.Holds node) {rule : Node → Answer}
    (hanswers : forest.Answers node rule) {origin : Nat} (hfresh : origin ∉ forest.origins) :
    ((∃ root, (node.transform origin rule).result = .ok root) ↔ node.FitsOnTheWay rule) ∧
    (∀ root, (node.transform origin rule).result = .ok root →
      root.byteLen = node.sizeAfter rule) ∧
    (node.sizeAfter rule < wordSize →
      (∀ asked ∈ node.entered fun below => (rule below).replaces, rule asked = .keep →
        asked.children.Pairwise fun before after =>
          before.sizeAfter rule ≤ before.byteLen ∨ after.byteLen ≤ after.sizeAfter rule) →
      ∃ root, (node.transform origin rule).result = .ok root) := by
  have hready := h.sound.transformable hnode hanswers origin
  have hdistinct := h.sound.distinct hfresh
  have hiff : (∃ root, (node.transform origin rule).result = .ok root) ↔
      node.FitsOnTheWay rule := by
    rw [← hready.exists_renewed_iff hdistinct]
    constructor
    · rintro ⟨root, hok⟩
      obtain ⟨tree, hrenewed, -⟩ := Node.result_transform_eq_ok_iff.1 hok
      exact ⟨tree, hrenewed⟩
    · rintro ⟨tree, hrenewed⟩
      exact ⟨.top tree, Node.result_transform_eq_ok_iff.2 ⟨tree, hrenewed, rfl⟩⟩
  refine ⟨hiff, fun root hok => ?_, fun hfits hpairs => ?_⟩
  · obtain ⟨tree, hrenewed, rfl⟩ := Node.result_transform_eq_ok_iff.1 hok
    exact (hready.realizes hdistinct hrenewed).byteLen_eq
  · exact hiff.2 (Node.fitsOnTheWay_of_pairwise hready.laidOut hfits hpairs)

namespace Forest

/-- A token of `2 ^ 63` bytes, half of what fits a word. -/
def longToken : Token :=
  (Token.identifier "y").withTrailing ⟨[.spaces 0x7fffffffffffffff]⟩

theorem size_longToken : longToken.size = 0x8000000000000000 :=
  longToken.measures_byteLen.eq_of_eq_ok rfl

theorem size_shortToken : (Token.identifier "x").size = 1 :=
  rfl

/-- A variable of one byte, as the child at `index` of a root that is built. -/
def shortVariable (index : Nat) : Tree :=
  ⟨⟨0, [index]⟩, .identifierVariable, 1, [.token 0 ⟨0, [index, 0]⟩ (.identifier "x")]⟩

/-- A variable of `2 ^ 63` bytes, as the child at `index` of a root that is built. -/
def longVariable (index : Nat) : Tree :=
  ⟨⟨0, [index]⟩, .identifierVariable, 0x8000000000000000,
    [.token 0 ⟨0, [index, 0]⟩ longToken]⟩

/-- A tree with two variables, the long one in front. -/
def longShortTree : Tree :=
  ⟨⟨0, []⟩, .lvalue, 0x8000000000000001,
    [.node 0 (longVariable 0), .node 0x8000000000000000 (shortVariable 1)]⟩

/-- A tree with two variables, the short one in front. -/
def shortLongTree : Tree :=
  ⟨⟨0, []⟩, .lvalue, 0x8000000000000001,
    [.node 0 (shortVariable 0), .node 1 (longVariable 1)]⟩

/-- The rule that exchanges the two children of a root. -/
def exchangeChildren (root : Node) (node : Node) : Answer :=
  match root.children with
  | [first, second] =>
    if node.path = [0] then .replace second else if node.path = [1] then .replace first else .keep
  | _ => .keep

theorem answers_exchangeChildren (tree : Tree) :
    (empty.add 0 tree).Answers (.top tree) (exchangeChildren (.top tree)) := by
  intro below replacement _ hanswer
  have hmem : replacement ∈ (Node.top tree).children := by
    unfold exchangeChildren at hanswer
    split at hanswer
    · rename_i first second hchildren
      rw [hchildren]
      split_ifs at hanswer <;> cases hanswer <;> simp
    · cases hanswer
  exact ⟨tree, .head _, .of_mem_children hmem⟩

/-- The stream of two variables is as long as their two tokens. -/
theorem streamSize_variables (first second : Token) :
    streamSize [.start .lvalue, .start .identifierVariable, .push first, .close,
      .start .identifierVariable, .push second, .close, .close] = first.size + second.size := by
  simp [Event.size]

/-- The long variable in front and the short one behind it are exchanged: the first one shrinks,
then the second one grows. -/
theorem exchange_longShort_fits :
    (empty.add 0 longShortTree).Reachable ∧
    (empty.add 0 longShortTree).Holds (.top longShortTree) ∧
    (empty.add 0 longShortTree).Answers (.top longShortTree)
      (exchangeChildren (.top longShortTree)) ∧
    1 ∉ (empty.add 0 longShortTree).origins ∧
    ∃ root, ((Node.top longShortTree).transform 1
        (exchangeChildren (.top longShortTree))).result = .ok root ∧
      root.byteLen = 0x8000000000000001 := by
  have hreachable : (empty.add 0 longShortTree).Reachable := reachable_of_build rfl
  have hholds := holds_top empty 0 longShortTree
  have hfresh : 1 ∉ (empty.add 0 longShortTree).origins := by decide
  have hevents : (Node.top longShortTree).eventsWith (exchangeChildren (.top longShortTree)) =
      [.start .lvalue, .start .identifierVariable, .push (.identifier "x"), .close,
        .start .identifierVariable, .push longToken, .close, .close] := rfl
  have hsize : (Node.top longShortTree).sizeAfter (exchangeChildren (.top longShortTree)) =
      0x8000000000000001 := by
    rw [Node.sizeAfter, hevents, streamSize_variables, size_shortToken, size_longToken]
  have hentered : ((Node.top longShortTree).entered fun below =>
      (exchangeChildren (.top longShortTree) below).replaces) =
        [.top longShortTree, .inner (.top longShortTree) 0 0 (longVariable 0),
          .inner (.top longShortTree) 1 0x8000000000000000 (shortVariable 1)] := rfl
  obtain ⟨-, hlength, hfits⟩ := hreachable.transform_ok_iff_fitsOnTheWay hholds
    (answers_exchangeChildren longShortTree) hfresh
  rw [hsize, hentered] at hfits
  obtain ⟨root, hroot⟩ := hfits (by decide) fun asked hasked hkeep => by
    rcases hasked with _ | ⟨_, _ | ⟨_, _ | ⟨_, ⟨⟩⟩⟩⟩
    · refine .cons ?_ (List.pairwise_singleton _ _)
      rintro _ (_ | ⟨_, ⟨⟩⟩)
      -- the first child shrinks to a single byte
      exact .inl (show 1 ≤ 0x8000000000000000 by decide)
    · cases hkeep
    · cases hkeep
  exact ⟨hreachable, hholds, answers_exchangeChildren longShortTree, hfresh, root, hroot,
    (hlength root hroot).trans hsize⟩

/-- The tree of the long variable in front of the short one, as a builder makes it. -/
def exchangedTree : Tree :=
  ⟨⟨1, []⟩, .lvalue, 0x8000000000000001,
    [.node 0 ⟨⟨1, [0]⟩, .identifierVariable, 0x8000000000000000,
        [.token 0 ⟨1, [0, 0]⟩ longToken]⟩,
      .node 0x8000000000000000 ⟨⟨1, [1]⟩, .identifierVariable, 1,
        [.token 0 ⟨1, [1, 0]⟩ (.identifier "x")]⟩]⟩

/-- The short variable in front and the long one behind it are exchanged: the first one grows, and
as long as the second one is still old, the copy does not fit a word. The result would be as long
as the tree is, and a builder takes its stream. -/
theorem exchange_shortLong_overflows :
    (empty.add 0 shortLongTree).Reachable ∧
    (empty.add 0 shortLongTree).Holds (.top shortLongTree) ∧
    (empty.add 0 shortLongTree).Answers (.top shortLongTree)
      (exchangeChildren (.top shortLongTree)) ∧
    1 ∉ (empty.add 0 shortLongTree).origins ∧
    (Node.top shortLongTree).sizeAfter (exchangeChildren (.top shortLongTree)) < wordSize ∧
    ((Node.top shortLongTree).transform 1 (exchangeChildren (.top shortLongTree))).result =
      .error .add ∧
    Builder.build 1 ((Node.top shortLongTree).eventsWith
      (exchangeChildren (.top shortLongTree))) = .ok (.top exchangedTree) := by
  have hevents : (Node.top shortLongTree).eventsWith (exchangeChildren (.top shortLongTree)) =
      [.start .lvalue, .start .identifierVariable, .push longToken, .close,
        .start .identifierVariable, .push (.identifier "x"), .close, .close] := rfl
  have hfits : (Node.top shortLongTree).sizeAfter (exchangeChildren (.top shortLongTree)) <
      wordSize := by
    rw [Node.sizeAfter, hevents, streamSize_variables, size_longToken, size_shortToken]
    decide
  exact ⟨reachable_of_build rfl, holds_top empty 0 shortLongTree,
    answers_exchangeChildren shortLongTree, by decide, hfits, rfl, rfl⟩

end Forest

end LosslessTree
