import LosslessTree.Proofs.Identity
import LosslessTree.Proofs.TextRanges
import LosslessTree.Proofs.Walk.Confinement
import LosslessTree.Visitor.Basic

/-!
# Reading without overflow

Whoever reads a tree adds offsets: each time a child is seen in place, its offset is added to that
of the node above. Elsewhere these are plain sums. This file repeats the ways to read a tree with a
check at every sum. In a tree that is laid out no check fails, since each sum is the offset of a
part, and parts end before the text does: so the checked readings give what the plain ones give.

A traversal may stop early and leave sums uncomputed. The checked one computes all sums of the
subtree and so succeeds less often than a traversal that checks those it needs.

## Main definitions

* `Node.Fits`: the sums at a node fit a word.
* `Node.checkedParts`, `Node.checkedNextSibling?`, `Node.checkedFold`, `Walk.checkedAnswers`,
  `Visitor.checkedAccept`: reading with a check at every sum.
* `Node.ReadsExactly`: no check fails, and the outcome is that of reading without checks.

## Main results

* `Node.Reaches.exists_stop_le`: no part ends behind the end of the text.
* `Node.checkedFold_eq`: checked folds and folds agree.
* `Walk.checkedAnswers_eq`: checked walks and walks agree.
* `Node.Within.readsExactly`: in a tree that is laid out, all readings are exact.
-/

namespace LosslessTree

universe u

variable {α : Type u}

/-! ### Parts end before the text does -/

namespace Node

variable {tree : Tree} {node : Node}

/-- **No part ends behind the end of the text.** -/
theorem Reaches.exists_stop_le {part : Part} (hlaid : tree.LaidOut)
    (h : (top tree).Reaches part) :
    ∃ length, part.byteLen = .ok length ∧ part.offset + length ≤ tree.byteLen := by
  obtain ⟨front, back, hevents, hoffset⟩ := h.exists_split_size hlaid
  have hsize := congrArg streamSize hevents
  rw [hlaid.streamSize_events, streamSize_append, streamSize_append, hoffset,
    ← utf8ByteSize_streamText part.events, part.streamText_events] at hsize
  exact ⟨part.text.utf8ByteSize, h.byteLen_eq hlaid, by omega⟩

/-- The sums that are computed when the children of a node are seen in place fit a word. -/
def Fits (node : Node) : Prop :=
  ∀ child ∈ node.tree.children, node.offset + child.offset < wordSize

/-- Below a tree that is laid out, the sums at every node fit a word. -/
theorem Within.fits (hlaid : tree.LaidOut) (h : (top tree).Within node) : node.Fits := by
  intro child hchild
  obtain ⟨index, hindex⟩ := List.mem_iff_getElem?.1 hchild
  have hpart : node.part index child ∈ node.parts := by
    refine List.mem_of_getElem? (i := index) ?_
    rw [getElem?_parts, hindex]
    rfl
  have hoffset : (node.part index child).offset = node.offset + child.offset := by
    cases child <;> rfl
  obtain ⟨length, -, hstop⟩ := (h.reaches (reaches_of_mem_parts hpart)).exists_stop_le hlaid
  have hlt := hlaid.byteLen_lt
  omega

end Node

/-! ### What stands around a node -/

/-- Steps that succeed one by one succeed together. -/
theorem mapM_eq_ok {β : Type u} {f : α → Except Overflow β} {g : α → β} {list : List α}
    (h : ∀ a ∈ list, f a = .ok (g a)) : list.mapM f = .ok (list.map g) := by
  induction list with
  | nil => rfl
  | cons a rest ih =>
    rw [List.mapM_cons, h a (.head _), ih fun other hmem => h other (.tail _ hmem)]
    rfl

theorem checkedAdd_eq_ok {a b : Nat} (h : a + b < wordSize) : checkedAdd a b = .ok (a + b) :=
  checkedAdd_eq_ok_iff.2 ⟨h, rfl⟩

namespace Node

variable {tree : Tree} {node : Node}

/-- The child at `index`, seen in place, if its absolute offset fits a word. -/
def checkedPart (node : Node) (index : Nat) (child : Child) : Except Overflow Part := do
  let start ← checkedAdd node.offset child.offset
  match child with
  | .token _ id token => return .leaf ⟨node, index, start, id, token⟩
  | .node _ tree => return .node (inner node index start tree)

/-- The nodes and tokens directly below a node. -/
def checkedParts (node : Node) : Except Overflow (List Part) :=
  node.tree.children.zipIdx.mapM fun (child, index) => node.checkedPart index child

theorem checkedParts_eq (h : node.Fits) : node.checkedParts = .ok node.parts := by
  refine mapM_eq_ok fun (child, index) hmem => ?_
  have hsum := checkedAdd_eq_ok (h child (List.fst_mem_of_mem_zipIdx hmem))
  simp only [checkedPart, hsum]
  cases child <;> rfl

/-- The first node directly below a node. -/
def checkedFirstChild? (node : Node) : Except Overflow (Option Node) := do
  return ((← node.checkedParts).filterMap Part.node?).head?

theorem checkedFirstChild?_eq (h : node.Fits) : node.checkedFirstChild? = .ok node.firstChild? := by
  rw [checkedFirstChild?, checkedParts_eq h]
  rfl

/-- The next node below the same parent. -/
def checkedNextSibling? (node : Node) : Except Overflow (Option Node) :=
  match node.parent? with
  | none => return none
  | some parent => do
    return ((← parent.checkedParts).drop (node.index + 1)).findSome? Part.node?

theorem checkedNextSibling?_eq (h : ∀ parent, node.parent? = some parent → parent.Fits) :
    node.checkedNextSibling? = .ok node.nextSibling? := by
  unfold checkedNextSibling? nextSibling?
  cases hparent : node.parent? with
  | none => rfl
  | some parent =>
    simp only [checkedParts_eq (h parent hparent)]
    rfl

/-- The index behind a node counts the parts of its parent, at most. -/
theorem Within.index_succ_le {parent : Node} (h : (top tree).Within node)
    (hparent : node.parent? = some parent) : node.index + 1 ≤ parent.tree.children.length := by
  have hget := getElem?_parts_of_mem_children (h.of_parent? hparent).2
  obtain ⟨hlt, -⟩ := List.getElem?_eq_some_iff.1 hget
  rwa [length_parts] at hlt

end Node

/-! ### Folds -/

mutual

/-- The value of a tree that stands at the node `here`. -/
def Tree.checkedFoldAt (f : Node → List (Branch α) → α) (here : Node) :
    Tree → Except Overflow α
  | ⟨_, _, _, children⟩ => do
    return f here (← checkedBranches f here 0 children)

/-- The branches of children of the node `here`, the first of which has the given index. -/
def checkedBranches (f : Node → List (Branch α) → α) (here : Node) (index : Nat) :
    List Child → Except Overflow (List (Branch α))
  | [] => .ok []
  | .token offset id token :: rest =>
    (checkedAdd here.offset offset).bind fun start => do
      return .leaf ⟨here, index, start, id, token⟩ :: (← checkedBranches f here (index + 1) rest)
  | .node offset tree :: rest =>
    (checkedAdd here.offset offset).bind fun start => do
      let value ← tree.checkedFoldAt f (.inner here index start tree)
      return .node (.inner here index start tree) (fun _ => value) ::
        (← checkedBranches f here (index + 1) rest)

end

namespace Node

variable {tree : Tree} {node : Node}

/-- The value of a node, where `f` makes the value of a node from the branches below it. -/
def checkedFold (f : Node → List (Branch α) → α) (node : Node) : Except Overflow α :=
  node.tree.checkedFoldAt f node

/-- The loop over the children of a node. -/
theorem checkedBranches_eq (f : Node → List (Branch α) → α) (children : List Child) (index : Nat)
    (hfits : ∀ child ∈ children, node.offset + child.offset < wordSize)
    (hbelow : ∀ child, .node child ∈ node.partsFrom index children →
      child.checkedFold f = .ok (child.fold f)) :
    checkedBranches f node index children = .ok (foldChildren f node index children) := by
  induction children generalizing index with
  | nil => simp only [checkedBranches, foldChildren]
  | cons child rest ih =>
    have hrest := ih (index + 1) (fun other hmem => hfits other (.tail _ hmem))
      fun other hmem => hbelow other (.tail _ hmem)
    cases child with
    | token offset id token =>
      have hsum : checkedAdd node.offset offset = .ok (node.offset + offset) :=
        checkedAdd_eq_ok (hfits _ (.head _))
      simp only [checkedBranches, foldChildren, hsum, hrest]
      rfl
    | node offset tree =>
      have hsum : checkedAdd node.offset offset = .ok (node.offset + offset) :=
        checkedAdd_eq_ok (hfits _ (.head _))
      have hvalue : tree.checkedFoldAt f (.inner node index (node.offset + offset) tree) =
          .ok (tree.foldAt f (.inner node index (node.offset + offset) tree)) :=
        hbelow _ (.head _)
      simp only [checkedBranches, foldChildren, hsum, Except.bind, hvalue, hrest]
      rfl

/-- **Checked folds and folds agree** where all sums of the subtree fit. -/
theorem checkedFold_eq (f : Node → List (Branch α) → α)
    (h : ∀ below, node.Within below → below.Fits) : node.checkedFold f = .ok (node.fold f) := by
  induction node using Node.induction with
  | step node ih =>
    have hbranches := checkedBranches_eq f node.tree.children 0 (h node (.refl node))
      fun child hmem => ih child (mem_children.2 hmem) fun below hbelow =>
        h below (.head (mem_children.2 hmem) hbelow)
    unfold checkedFold fold
    rcases htree : node.tree with ⟨id, kind, byteLen, children⟩
    rw [htree] at hbranches
    simp only [Tree.checkedFoldAt, Tree.foldAt, hbranches]
    rfl

/-- The first token of a subtree. -/
def checkedFirstToken? (node : Node) : Except Overflow (Option Leaf) :=
  node.checkedFold fun _ branches => branches.findSome? tokenOf?

/-- The last token of a subtree. -/
def checkedLastToken? (node : Node) : Except Overflow (Option Leaf) :=
  node.checkedFold fun _ branches => (branches.filterMap tokenOf?).getLast?

end Node

/-- What a visitor does when it is led to a node. -/
def Visitor.checkedAccept (visitor : Visitor α) (node : Node) : Except Overflow (Visit α) := do
  return visitor.lead node (← node.checkedFold visitor.belowStep)

/-! ### Walks -/

namespace Walk

variable {tree : Tree} {walk : Walk}

/-- The event after a given one. -/
def checkedSuccessor? (walk : Walk) : WalkEvent → Except Overflow (Option WalkEvent)
  | .enter n => do
    match ← n.checkedFirstChild? with
    | some child => return some (.enter child)
    | none => return some (.leave n)
  | .leave n =>
    if n == walk.start then return none
    else do
      match ← n.checkedNextSibling? with
      | some sibling => return some (.enter sibling)
      | none => return n.parent?.map .leave

/-- The next event, or none at the end, and the walk after it. -/
def checkedNext (walk : Walk) : Except Overflow (Option WalkEvent × Walk) :=
  match walk.due? with
  | none => return (none, { walk with pending := none, skipping := false })
  | some event => do
    let pending ← walk.checkedSuccessor? event
    return (some event, { walk with pending, skipping := false })

/-- The answers to the requests for an event, in order. -/
def checkedAnswers (walk : Walk) : List Request → Except Overflow (List (Option WalkEvent))
  | [] => return []
  | .next :: rest => do
    let (event, after) ← walk.checkedNext
    return event :: (← after.checkedAnswers rest)
  | .skip :: rest => walk.skipSubtree.checkedAnswers rest

/-- The event that is pending, if any, is at a node of the tree. -/
def InTree (walk : Walk) (tree : Tree) : Prop :=
  ∀ event, walk.pending = some event → (Node.top tree).Within event.node

theorem InTree.due? (h : walk.InTree tree) {event : WalkEvent} (hdue : walk.due? = some event) :
    (Node.top tree).Within event.node := by
  unfold Walk.due? at hdue
  split at hdue
  · obtain ⟨pending, hpending, hskip⟩ := Option.bind_eq_some_iff.1 hdue
    have hwithin := h pending hpending
    cases pending with
    | enter n =>
      obtain ⟨parent, hparent, rfl⟩ := Option.map_eq_some_iff.1 hskip
      exact (hwithin.of_parent? hparent).1
    | leave n =>
      cases hskip
      exact hwithin
  · exact h event hdue

/-- What follows an event in the tree is in the tree, whatever the start of the walk. -/
theorem within_successor? {event other : WalkEvent} (h : (Node.top tree).Within event.node)
    (hsucc : walk.successor? event = some other) : (Node.top tree).Within other.node := by
  cases event with
  | enter n =>
    simp only [successor?] at hsucc
    split at hsucc
    · rename_i child hchild
      cases hsucc
      exact h.tail (List.mem_of_head? hchild)
    · cases hsucc
      exact h
  | leave n =>
    simp only [successor?] at hsucc
    split at hsucc
    · cases hsucc
    · split at hsucc
      · rename_i sibling hsibling
        cases hsucc
        obtain ⟨parent, hparent, -, hmem⟩ := h.of_nextSibling? hsibling
        exact hparent.tail hmem
      · obtain ⟨parent, hparent, rfl⟩ := Option.map_eq_some_iff.1 hsucc
        exact (h.of_parent? hparent).1

/-- An event keeps a walk in the tree. -/
theorem InTree.next (h : walk.InTree tree) : walk.next.2.InTree tree := by
  intro other hother
  obtain ⟨event, hdue, hsucc⟩ := Option.bind_eq_some_iff.1 hother
  exact within_successor? (h.due? hdue) hsucc

theorem checkedSuccessor?_eq (hlaid : tree.LaidOut) {event : WalkEvent}
    (h : (Node.top tree).Within event.node) :
    walk.checkedSuccessor? event = .ok (walk.successor? event) := by
  cases event with
  | enter n =>
    have hchild : n.checkedFirstChild? = .ok n.firstChild? :=
      Node.checkedFirstChild?_eq (h.fits hlaid)
    rw [checkedSuccessor?, hchild, successor?]
    cases n.firstChild? <;> rfl
  | leave n =>
    have hsibling : n.checkedNextSibling? = .ok n.nextSibling? :=
      Node.checkedNextSibling?_eq fun parent hparent => (h.of_parent? hparent).1.fits hlaid
    rw [checkedSuccessor?, hsibling, successor?]
    split
    · rfl
    · cases n.nextSibling? <;> rfl

/-- One event: the checked walk goes where the walk goes. -/
theorem checkedNext_eq (hlaid : tree.LaidOut) (h : walk.InTree tree) :
    walk.checkedNext = .ok walk.next := by
  unfold checkedNext next
  cases hdue : walk.due? with
  | none => rfl
  | some event =>
    simp only [checkedSuccessor?_eq hlaid (h.due? hdue)]
    rfl

/-- **Checked walks and walks agree**, whatever is asked of them. -/
theorem checkedAnswers_eq (hlaid : tree.LaidOut) (h : walk.InTree tree) (script : List Request) :
    walk.checkedAnswers script = .ok (walk.answers script) := by
  induction script generalizing walk with
  | nil => rfl
  | cons request rest ih =>
    cases request with
    | skip => exact ih h
    | next =>
      rw [checkedAnswers, checkedNext_eq hlaid h, answers]
      change (do return walk.next.1 :: (← walk.next.2.checkedAnswers rest)) = _
      rw [ih h.next]
      rfl

end Walk

/-! ### All readings -/

/-- Whatever is read from a node on, no sum overflows, and checking the sums makes no difference. -/
structure Node.ReadsExactly (node : Node) : Prop where
  parts : node.checkedParts = .ok node.parts
  firstChild? : node.checkedFirstChild? = .ok node.firstChild?
  nextSibling? : node.checkedNextSibling? = .ok node.nextSibling?
  /-- The one sum that is no offset counts parts that are there. -/
  index_succ_le : ∀ parent, node.parent? = some parent →
    node.index + 1 ≤ parent.tree.children.length
  firstToken? : node.checkedFirstToken? = .ok node.firstToken?
  lastToken? : node.checkedLastToken? = .ok node.lastToken?
  walk : ∀ script, node.walk.checkedAnswers script = .ok (node.walk.answers script)
  accept : ∀ {σ : Type u} (visitor : Visitor σ),
    visitor.checkedAccept node = .ok (visitor.accept node)

/-- **In a tree that is laid out, all readings are exact.** -/
theorem Node.Within.readsExactly {tree : Tree} {node : Node} (hlaid : tree.LaidOut)
    (h : (top tree).Within node) : node.ReadsExactly where
  parts := checkedParts_eq (h.fits hlaid)
  firstChild? := checkedFirstChild?_eq (h.fits hlaid)
  nextSibling? := checkedNextSibling?_eq fun _ hparent => (h.of_parent? hparent).1.fits hlaid
  index_succ_le _ hparent := h.index_succ_le hparent
  firstToken? := checkedFold_eq _ fun _ hbelow => (h.trans hbelow).fits hlaid
  lastToken? := checkedFold_eq _ fun _ hbelow => (h.trans hbelow).fits hlaid
  walk script := by
    refine Walk.checkedAnswers_eq hlaid ?_ script
    rintro event ⟨⟩
    exact h
  accept visitor := by
    rw [Visitor.checkedAccept,
      checkedFold_eq visitor.belowStep fun _ hbelow => (h.trans hbelow).fits hlaid]
    rfl

/-- In a tree whose offsets were made up, a check fails. -/
example :
    (Node.top ⟨⟨0, []⟩, .file, 0, [.node (wordSize - 1) ⟨⟨0, [0]⟩, .lvalue, 0,
      [.token 1 ⟨0, [0, 0]⟩ (.identifier "x")]⟩]⟩).checkedFirstToken? = .error .add := by
  rfl

end LosslessTree
