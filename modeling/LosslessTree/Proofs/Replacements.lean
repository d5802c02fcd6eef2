import LosslessTree.Proofs.Layout
import LosslessTree.Proofs.Overwriting

/-!
# Replacing children in turn

A draft whose children are replaced is laid out anew each time, from the first child to the last.
Nothing of this is left in the end: once all replacements are made, the draft is the one that comes
out of appending its children to an empty draft, each index holding the last child that was put in
there. Where a child stood before it was put in does not matter, and neither does the order of
replacements at different indices, as far as the result goes. It does matter for the lengths on the
way, each of which has to fit a word.

## Main definitions

* `Replacement`, `overwrite`: a child for an index, and children with the last one for each index.
* `Draft.replaceInTurn`, `Draft.fromScratch`: replacing children one after the other, and appending
  children to an empty draft.
* `Draft.Made`: drafts that come out of appending and replacing.
* `FitsInTurn`: the lengths on the way fit a word.

## Main results

* `Draft.Made.eq_ofChildren`: a draft that was made is laid out.
* `Draft.yields_replaceInTurn`: replacing in turn succeeds exactly if the lengths on the way fit.
* `Draft.yields_replaceInTurn_swap`: what exchanging two replacements changes.
* `Draft.Made.replaceInTurn_eq_fromScratch`: replacing in turn leaves no trace.
-/

namespace LosslessTree

/-! ### Children with their last replacements -/

/-- A child that is to be put in at an index. -/
structure Replacement where
  index : Nat
  child : Child

/-- The same replacement by the child at offset zero. -/
def Replacement.atStart (replacement : Replacement) : Replacement :=
  { replacement with child := replacement.child.moveTo 0 }

/-- The children with each index holding the last child that is put in there. -/
def overwrite (children : List Child) (replacements : List Replacement) : List Child :=
  children.mapIdx fun index old =>
    (lastWith Replacement.index index replacements).elim old Replacement.child

theorem getElem?_overwrite (children : List Child) (replacements : List Replacement)
    (index : Nat) :
    (overwrite children replacements)[index]? = children[index]?.map fun old =>
      (lastWith Replacement.index index replacements).elim old Replacement.child :=
  List.getElem?_mapIdx

@[simp] theorem length_overwrite (children : List Child) (replacements : List Replacement) :
    (overwrite children replacements).length = children.length :=
  List.length_mapIdx

/-- Putting children in one after the other leaves the last one at each index. -/
theorem overwrite_eq_foldl (children : List Child) (replacements : List Replacement) :
    overwrite children replacements =
      replacements.foldl (fun children r => children.set r.index r.child) children := by
  refine List.ext_getElem? fun index => ?_
  rw [getElem?_overwrite, read_foldl_write (fun index (children : List Child) => children[index]?)
    (fun children r => children.set r.index r.child) Replacement.index
    (fun r held => held.map fun _ => r.child)]
  · -- an index behind the last child reads nothing, whatever is put in there
    cases lastWith Replacement.index index replacements <;> simp
  · intro children r index
    rw [List.getElem?_set']
    rfl
  · intro r later held
    rw [Option.map_map]
    rfl

@[simp] theorem overwrite_nil (children : List Child) : overwrite children [] = children :=
  overwrite_eq_foldl children []

theorem overwrite_cons (children : List Child) (first : Replacement) (rest : List Replacement) :
    overwrite children (first :: rest) = overwrite (children.set first.index first.child) rest := by
  rw [overwrite_eq_foldl, overwrite_eq_foldl, List.foldl_cons]

theorem overwrite_append (children : List Child) (front back : List Replacement) :
    overwrite children (front ++ back) = overwrite (overwrite children front) back := by
  simp only [overwrite_eq_foldl, List.foldl_append]

/-- Replacements at different indices can be exchanged. -/
theorem overwrite_swap (children : List Child) {first second : Replacement}
    (h : first.index ≠ second.index) (back : List Replacement) :
    overwrite children (second :: first :: back) =
      overwrite children (first :: second :: back) := by
  simp only [overwrite_cons]
  rw [List.set_comm _ _ h]

/-! ### Lengths on the way -/

/-- The children fit a word together, at first and after each of the replacements. -/
def FitsInTurn (children : List Child) (replacements : List Replacement) : Prop :=
  ∀ front, front <+: replacements → childrenSize (overwrite children front) < wordSize

theorem fitsInTurn_nil (children : List Child) :
    FitsInTurn children [] ↔ childrenSize children < wordSize := by
  simp [FitsInTurn]

theorem fitsInTurn_cons (children : List Child) (first : Replacement) (rest : List Replacement) :
    FitsInTurn children (first :: rest) ↔ childrenSize children < wordSize ∧
      FitsInTurn (children.set first.index first.child) rest := by
  simp only [FitsInTurn, List.prefix_cons_iff]
  constructor
  · intro hfits
    refine ⟨by simpa using hfits [] (.inl rfl), fun front hfront => ?_⟩
    rw [← overwrite_cons]
    exact hfits _ (.inr ⟨front, rfl, hfront⟩)
  · rintro ⟨hstart, hrest⟩ front (rfl | ⟨front, rfl, hfront⟩)
    · simpa using hstart
    · rw [overwrite_cons]
      exact hrest front hfront

theorem FitsInTurn.start {children : List Child} {replacements : List Replacement}
    (h : FitsInTurn children replacements) : childrenSize children < wordSize := by
  simpa using h [] List.nil_prefix

theorem fitsInTurn_append (children : List Child) (front back : List Replacement) :
    FitsInTurn children (front ++ back) ↔
      FitsInTurn children front ∧ FitsInTurn (overwrite children front) back := by
  induction front generalizing children with
  | nil =>
    rw [List.nil_append, overwrite_nil, fitsInTurn_nil]
    exact ⟨fun h => ⟨h.start, h⟩, And.right⟩
  | cons first rest ih =>
    rw [List.cons_append, fitsInTurn_cons, fitsInTurn_cons, overwrite_cons, ih, and_assoc]

/-- When two replacements at different indices are exchanged, one length on the way is another
one. -/
theorem FitsInTurn.swap_iff {children : List Child} {front back : List Replacement}
    {first second : Replacement} (hne : first.index ≠ second.index)
    (h : FitsInTurn children (front ++ first :: second :: back)) :
    FitsInTurn children (front ++ second :: first :: back) ↔
      childrenSize (overwrite children (front ++ [second])) < wordSize := by
  simp only [fitsInTurn_append, fitsInTurn_cons, overwrite_append, overwrite_cons,
    overwrite_nil] at h ⊢
  -- up to the two replacements and behind them the lengths are the same
  obtain ⟨hfront, hstart, -, hback⟩ := h
  rw [List.set_comm _ _ hne] at hback
  constructor
  · rintro ⟨-, -, hmid, -⟩
    exact hmid
  · intro hmid
    exact ⟨hfront, hstart, hmid, hback⟩

/-! ### Drafts -/

namespace Draft

/-- Where a child stood before does not matter for laying out. -/
theorem layOut_map_moveTo (offset start : Nat) (children : List Child) :
    layOut start (children.map (Child.moveTo offset)) = layOut start children := by
  induction children generalizing start with
  | nil => rfl
  | cons child rest ih =>
    have hlen : (child.moveTo offset).byteLen = child.byteLen := by cases child <;> rfl
    simp only [List.map_cons, layOut, hlen, Child.moveTo_moveTo, ih]

/-- Where a child stood before does not matter when it is put in. -/
theorem replaceChild_moveTo (draft : Draft) (index offset : Nat) (child : Child) :
    draft.replaceChild index (child.moveTo offset) = draft.replaceChild index child := by
  have hset : (draft.children.set index (child.moveTo offset)).map (Child.moveTo 0) =
      (draft.children.set index child).map (Child.moveTo 0) := by
    rw [List.map_set, List.map_set, Child.moveTo_moveTo]
  rw [replaceChild, replaceChild, ← layOut_map_moveTo 0, hset, layOut_map_moveTo]

/-- Replaces children one after the other. -/
def replaceInTurn (draft : Draft) (replacements : List Replacement) : Except Overflow Draft :=
  replacements.foldlM (fun draft r => draft.replaceChild r.index r.child) draft

theorem replaceInTurn_map_atStart (draft : Draft) (replacements : List Replacement) :
    draft.replaceInTurn (replacements.map Replacement.atStart) =
      draft.replaceInTurn replacements := by
  simp only [replaceInTurn, List.foldlM_map, Replacement.atStart, replaceChild_moveTo]

/-- Appends children to an empty draft, one after the other. -/
def fromScratch (kind : NodeKind) (children : List Child) : Except Overflow Draft :=
  children.foldlM push (empty kind)

/-- Appending children to an empty draft succeeds exactly if they fit a word together. -/
theorem yields_fromScratch (kind : NodeKind) (children : List Child) :
    Yields (fromScratch kind children) (childrenSize children < wordSize)
      (ofChildren kind children) := by
  have hlay := yields_layOut (by decide : 0 < wordSize) children
  rw [Nat.zero_add] at hlay
  rw [fromScratch, foldlM_push]
  exact hlay.map fun result => (⟨kind, result.2, [] ++ result.1⟩ : Draft)

/-- Appending a child to a draft that is laid out. -/
theorem yields_push_ofChildren (kind : NodeKind) (children : List Child) (child : Child) :
    Yields ((ofChildren kind children).push child)
      (childrenSize (children ++ [child]) < wordSize) (ofChildren kind (children ++ [child])) := by
  have hyields := (ofChildren kind children).yields_push child
  simpa [ofChildren, place_append, place, childrenSize] using hyields

/-- An operation that gives a draft with certain children gives one that is laid out. -/
theorem exists_ofChildren_of_yields {x : Except Overflow Draft} {kind : NodeKind}
    {children : List Child} {draft : Draft}
    (h : Yields x (childrenSize children < wordSize) (ofChildren kind children))
    (hok : x = .ok draft) :
    ∃ children, childrenSize children < wordSize ∧ draft = ofChildren draft.kind children := by
  obtain rfl := h.eq_of_eq_ok hok
  exact ⟨children, h.of_eq_ok hok, rfl⟩

/-- Drafts that come out of appending children to an empty draft and of replacing some of them,
in any order. A child may be a token or a tree, and may have stood anywhere before. -/
inductive Made : Draft → Prop
  | empty (kind : NodeKind) : Made (empty kind)
  | push {draft grown : Draft} {child : Child} (h : draft.Made)
      (hpush : draft.push child = .ok grown) : grown.Made
  | replace {draft changed : Draft} {index : Nat} {child : Child} (h : draft.Made)
      (hindex : index < draft.children.length)
      (hreplace : draft.replaceChild index child = .ok changed) : changed.Made

/-- What is left of replacements in a draft. -/
structure Overwritten (draft : Draft) (replacements : List Replacement) (result : Draft) :
    Prop where
  /-- Appending all children to an empty draft, once, makes the same draft. -/
  fromScratch_eq : fromScratch draft.kind (overwrite draft.children replacements) = .ok result
  kind_eq : result.kind = draft.kind
  length_eq : result.children.length = draft.children.length
  /-- Each index holds the last child that was put in there, or the one from before. -/
  getElem?_eq : ∀ index : Nat, result.children[index]? = draft.children[index]?.map fun old =>
    ((lastWith Replacement.index index replacements).elim old Replacement.child).moveTo
      (childrenSize ((overwrite draft.children replacements).take index))
  /-- No replacement is without effect, unless a later one at its index hides it. -/
  replaced : ∀ r ∈ replacements, ∃ last offset,
    lastWith Replacement.index r.index replacements = some last ∧
      result.children[r.index]? = some (last.child.moveTo offset)

/-- Replacing in turn succeeds exactly if the lengths on the way fit, and leaves the last child that
was put in at each index. -/
theorem yields_replaceInTurn (kind : NodeKind) {children : List Child}
    (hfits : childrenSize children < wordSize) (replacements : List Replacement) :
    Yields ((ofChildren kind children).replaceInTurn replacements)
      (FitsInTurn children replacements) (ofChildren kind (overwrite children replacements)) := by
  induction replacements generalizing children with
  | nil =>
    rw [overwrite_nil, fitsInTurn_nil]
    exact .ok hfits _
  | cons first rest ih =>
    -- each replacement leaves a draft that is laid out, so the next one starts from its children
    have hfirst := yields_replaceChild_ofChildren kind children first.index first.child
    rw [replaceInTurn, List.foldlM_cons, overwrite_cons, fitsInTurn_cons, and_iff_right hfits]
    exact hfirst.bind FitsInTurn.start fun hnext => ih hnext

/-- The same replacements with two neighbours exchanged: the result is the same, unless the one
length that is new on the way does not fit. -/
theorem yields_replaceInTurn_swap (kind : NodeKind) {children : List Child}
    {front back : List Replacement} {first second : Replacement}
    (hne : first.index ≠ second.index)
    (h : FitsInTurn children (front ++ first :: second :: back)) :
    Yields ((ofChildren kind children).replaceInTurn (front ++ second :: first :: back))
      (childrenSize (overwrite children (front ++ [second])) < wordSize)
      (ofChildren kind (overwrite children (front ++ first :: second :: back))) := by
  have hswapped := yields_replaceInTurn kind h.start (front ++ second :: first :: back)
  have hsame : overwrite children (front ++ second :: first :: back) =
      overwrite children (front ++ first :: second :: back) := by
    rw [overwrite_append, overwrite_swap _ hne, ← overwrite_append]
  rwa [h.swap_iff hne, hsame] at hswapped

theorem getElem?_ofChildren_overwrite (kind : NodeKind) (children : List Child)
    (replacements : List Replacement) (index : Nat) :
    (ofChildren kind (overwrite children replacements)).children[index]? =
      children[index]?.map fun old =>
        ((lastWith Replacement.index index replacements).elim old Replacement.child).moveTo
          (childrenSize ((overwrite children replacements).take index)) := by
  rw [ofChildren, getElem?_place, getElem?_overwrite, Option.map_map, Nat.zero_add]
  rfl

namespace Made

variable {draft result : Draft} {replacements : List Replacement}

/-- Appending and replacing make drafts that are laid out. -/
theorem exists_ofChildren (h : draft.Made) :
    ∃ children, childrenSize children < wordSize ∧ draft = ofChildren draft.kind children := by
  induction h with
  | empty kind => exact ⟨[], by decide, rfl⟩
  | @push draft grown child _ hpush ih =>
    obtain ⟨children, -, hdraft⟩ := ih
    have hyields := yields_push_ofChildren draft.kind children child
    rw [← hdraft] at hyields
    exact exists_ofChildren_of_yields hyields hpush
  | @replace draft changed index child _ _ hreplace ih =>
    obtain ⟨children, -, hdraft⟩ := ih
    have hyields := yields_replaceChild_ofChildren draft.kind children index child
    rw [← hdraft] at hyields
    exact exists_ofChildren_of_yields hyields hreplace

/-- **A draft that was made is laid out**: it is made of its own children, and fits a word. -/
theorem eq_ofChildren (h : draft.Made) :
    childrenSize draft.children < wordSize ∧ draft = ofChildren draft.kind draft.children := by
  obtain ⟨children, hfits, hdraft⟩ := h.exists_ofChildren
  rw [hdraft]
  exact ⟨by simpa [ofChildren] using hfits, by simp [ofChildren]⟩

theorem yields_replaceInTurn (h : draft.Made) (replacements : List Replacement) :
    Yields (draft.replaceInTurn replacements) (FitsInTurn draft.children replacements)
      (ofChildren draft.kind (overwrite draft.children replacements)) := by
  obtain ⟨hfits, hdraft⟩ := h.eq_ofChildren
  have hyields := Draft.yields_replaceInTurn draft.kind hfits replacements
  rwa [← hdraft] at hyields

theorem overwritten (h : draft.Made)
    (hindices : ∀ r ∈ replacements, r.index < draft.children.length)
    (hok : draft.replaceInTurn replacements = .ok result) :
    draft.Overwritten replacements result := by
  have hyields := h.yields_replaceInTurn replacements
  have hfits := hyields.of_eq_ok hok _ (List.prefix_refl replacements)
  obtain rfl := hyields.eq_of_eq_ok hok
  refine ⟨(yields_fromScratch draft.kind _).eq_ok hfits, rfl, by simp [ofChildren],
    getElem?_ofChildren_overwrite draft.kind draft.children replacements, ?_⟩
  intro r hr
  obtain ⟨last, hlast⟩ := exists_lastWith_of_mem Replacement.index hr
  refine ⟨last, childrenSize ((overwrite draft.children replacements).take r.index), hlast, ?_⟩
  rw [getElem?_ofChildren_overwrite, List.getElem?_eq_getElem (hindices r hr), hlast]
  rfl

/-- **Replacing children in turn leaves no trace.** Take a draft that was made by appending and
replacing, and replacements at indices that it has, none of which overflows. The result is the draft
that comes out of appending all children to an empty draft of the same kind, each index holding the
last child that was put in there; kind, number and order of the children are as before. It does not
matter which offsets the new children had, nor which replacements came before the last one at each
index. If two neighbouring replacements at different indices are exchanged, the result is the same,
unless the one length on the way that is new does not fit a word. -/
theorem replaceInTurn_eq_fromScratch (h : draft.Made)
    (hindices : ∀ r ∈ replacements, r.index < draft.children.length)
    (hok : draft.replaceInTurn replacements = .ok result) :
    draft.Overwritten replacements result ∧
    (∀ others : List Replacement,
      others.map Replacement.atStart = replacements.map Replacement.atStart →
        draft.replaceInTurn others = .ok result) ∧
    (∀ (others : List Replacement) (other : Draft),
      (∀ index, lastWith Replacement.index index others =
        lastWith Replacement.index index replacements) →
      draft.replaceInTurn others = .ok other → other = result) ∧
    ∀ (front back : List Replacement) (first second : Replacement),
      replacements = front ++ first :: second :: back → first.index ≠ second.index →
        Yields (draft.replaceInTurn (front ++ second :: first :: back))
          (childrenSize (overwrite draft.children (front ++ [second])) < wordSize) result := by
  have hyields := h.yields_replaceInTurn replacements
  refine ⟨h.overwritten hindices hok, ?_, ?_, ?_⟩
  · intro others hothers
    rw [← replaceInTurn_map_atStart, hothers, replaceInTurn_map_atStart, hok]
  · intro others other hlast hother
    have hsame : overwrite draft.children others = overwrite draft.children replacements := by
      simp only [overwrite, hlast]
    rw [← (h.yields_replaceInTurn others).eq_of_eq_ok hother, hsame]
    exact hyields.eq_of_eq_ok hok
  · rintro front back first second rfl hne
    have hswap := yields_replaceInTurn_swap draft.kind hne (hyields.of_eq_ok hok)
    rwa [hyields.eq_of_eq_ok hok, ← h.eq_ofChildren.2] at hswap

end Made

/-- The draft of `a.b`. -/
def accessDraft : Draft :=
  ⟨.lvalue, 3, [.token 0 ⟨0, [0]⟩ (.identifier "a"), .token 1 ⟨0, [1]⟩ (.punctuation .dot),
    .token 2 ⟨0, [2]⟩ (.identifier "b")]⟩

theorem made_accessDraft : accessDraft.Made := by
  have hvariable : Made ⟨.lvalue, 1, [.token 0 ⟨0, [0]⟩ (.identifier "a")]⟩ :=
    .push (.empty .lvalue) (rfl : push _ (.token 0 ⟨0, [0]⟩ (.identifier "a")) = _)
  have hdot : Made ⟨.lvalue, 2, [.token 0 ⟨0, [0]⟩ (.identifier "a"),
      .token 1 ⟨0, [1]⟩ (.punctuation .dot)]⟩ :=
    .push hvariable (rfl : push _ (.token 0 ⟨0, [1]⟩ (.punctuation .dot)) = _)
  exact .push hdot (rfl : push _ (.token 0 ⟨0, [2]⟩ (.identifier "b")) = _)

/-- The variable `xy` as a child at the given offset. -/
def variableChild (offset : Nat) : Child :=
  .node offset ⟨⟨3, []⟩, .identifierVariable, 2, [.token 0 ⟨3, [0]⟩ (.identifier "xy")]⟩

/-- The draft of `ü.xy`. -/
def replacedDraft : Draft :=
  ⟨.lvalue, 5, [.token 0 ⟨2, []⟩ (.identifier "ü"), .token 2 ⟨0, [1]⟩ (.punctuation .dot),
    variableChild 3]⟩

/-- The first child replaced by `abc` and by `ü`, and the last one by `xy` in between. -/
def accessReplacements : List Replacement :=
  [⟨0, .token 7 ⟨1, []⟩ (.identifier "abc")⟩, ⟨2, variableChild 9⟩,
    ⟨0, .token 4 ⟨2, []⟩ (.identifier "ü")⟩]

/-- From `a.b` over `abc.b` and `abc.xy` to `ü.xy`, and also over `a.xy` and `abc.xy`. -/
theorem replaceInTurn_accessDraft :
    accessDraft.Made ∧
    (∀ r ∈ accessReplacements, r.index < accessDraft.children.length) ∧
    accessDraft.replaceInTurn accessReplacements = .ok replacedDraft ∧
    fromScratch .lvalue [.token 4 ⟨2, []⟩ (.identifier "ü"),
      .token 1 ⟨0, [1]⟩ (.punctuation .dot), variableChild 9] = .ok replacedDraft ∧
    accessDraft.replaceInTurn [⟨2, variableChild 9⟩, ⟨0, .token 7 ⟨1, []⟩ (.identifier "abc")⟩,
      ⟨0, .token 4 ⟨2, []⟩ (.identifier "ü")⟩] = .ok replacedDraft := by
  have hindices : ∀ r ∈ accessReplacements, r.index < accessDraft.children.length := by
    rintro _ (_ | ⟨_, _ | ⟨_, _ | ⟨_, ⟨⟩⟩⟩⟩) <;> decide
  have hok : accessDraft.replaceInTurn accessReplacements = .ok replacedDraft := rfl
  obtain ⟨hoverwritten, -, -, hswap⟩ := made_accessDraft.replaceInTurn_eq_fromScratch hindices hok
  exact ⟨made_accessDraft, hindices, hok, hoverwritten.fromScratch_eq,
    (hswap [] _ _ _ rfl (by decide)).eq_ok (by decide)⟩

end Draft

end LosslessTree
