import Mathlib.Data.List.ReduceOption
import LosslessTree.Proofs.Faces
import LosslessTree.Proofs.Rename.Result

/-!
# The face of a named element

The name of an element is one of the tokens of its face, found by counting identifiers. An element
that is given another name is copied, and the copy differs from it in its own face, and there in the
text of that token. Its kind and the kinds of the tokens stay as they are, so the name is found
again where it was: a later name overwrites an earlier one, and the name that was given last is the
one that is read.

## Main definitions

* `identifiersOf`, `renameNth`: the identifiers among tokens, and the tokens with another text for
  one of them.
* `Face.renamed`, `Face.name?`: the face of an element with another name, and its name.

## Main results

* `Face.renamed_renamed`, `Face.name?_renamed`, `Face.renamed_of_name?`: writing and reading a name.
* `Node.map_name?_ofNode?`: the name of an element is read off its face.
* `Node.faceAt_treeWith`: the copy of an element differs from it in its own face only.
-/

namespace LosslessTree

/-! ### The face of a named element -/

/-- Which of the identifiers directly below a node of this kind names it. -/
def NodeKind.nameIndex? : NodeKind → Option Nat
  | .fieldSig => some 2
  | .identifierVariable => some 0
  | .file | .assignStatement | .lvalue => none

/-- The identifiers among the tokens of a face. -/
def identifiersOf (tokens : List (Option Token)) : List Token :=
  tokens.reduceOption.filter fun token => token.kind = .identifier

/-- The tokens of a face with another text for the identifier number `number`, from zero. -/
def renameNth (name : String) : Nat → List (Option Token) → List (Option Token)
  | _, [] => []
  | number, none :: rest => none :: renameNth name number rest
  | number, some token :: rest =>
    if token.kind = .identifier then
      match number with
      | 0 => some (token.withText name) :: rest
      | number + 1 => some token :: renameNth name number rest
    else some token :: renameNth name number rest

theorem renameNth_renameNth (name other : String) (number : Nat) (tokens : List (Option Token)) :
    renameNth other number (renameNth name number tokens) = renameNth other number tokens := by
  induction tokens generalizing number with
  | nil => rfl
  | cons entry rest ih =>
    cases entry with
    | none => rw [renameNth, renameNth, renameNth, ih]
    | some token =>
      by_cases hkind : token.kind = .identifier
      · cases number with
        | zero => simp [renameNth, hkind, Token.withText]
        | succ number => simp [renameNth, hkind, ih]
      · simp [renameNth, hkind, ih]

theorem identifiersOf_renameNth (name : String) (number : Nat) (tokens : List (Option Token)) :
    identifiersOf (renameNth name number tokens) =
      (identifiersOf tokens).modify number (Token.withText · name) := by
  induction tokens generalizing number with
  | nil => simp [renameNth, identifiersOf]
  | cons entry rest ih =>
    cases entry with
    | none => simpa [renameNth, identifiersOf] using ih number
    | some token =>
      by_cases hkind : token.kind = .identifier
      · cases number with
        | zero => simp [renameNth, identifiersOf, hkind, Token.withText]
        | succ number => simpa [renameNth, identifiersOf, hkind] using ih number
      · simpa [renameNth, identifiersOf, hkind] using ih number

theorem renameNth_self {number : Nat} {tokens : List (Option Token)} {token : Token}
    (h : (identifiersOf tokens)[number]? = some token) :
    renameNth token.text number tokens = tokens := by
  induction tokens generalizing number with
  | nil => rfl
  | cons entry rest ih =>
    cases entry with
    | none => rw [renameNth, ih (by simpa [identifiersOf] using h)]
    | some first =>
      by_cases hkind : first.kind = .identifier
      · cases number with
        | zero =>
          obtain rfl : first = token := by simpa [identifiersOf, hkind] using h
          have hsame : first.withText first.text = first := rfl
          simp [renameNth, hkind, hsame]
        | succ number =>
          have hrest : (identifiersOf rest)[number]? = some token := by
            simpa [identifiersOf, hkind] using h
          simp [renameNth, hkind, ih hrest]
      · have hrest : (identifiersOf rest)[number]? = some token := by
          simpa [identifiersOf, hkind] using h
        simp [renameNth, hkind, ih hrest]

namespace Face

/-- The face of an element with another name; other faces stay as they are. -/
def renamed (name : String) (face : Face) : Face :=
  match face.kind.nameIndex? with
  | some number => { face with tokens := renameNth name number face.tokens }
  | none => face

/-- The name of an element, if the face is that of an element, and if it has one. -/
def name? (face : Face) : Option (Option String) :=
  face.kind.nameIndex?.map fun number => (identifiersOf face.tokens)[number]?.map Token.text

/-- A later name overwrites an earlier one. -/
theorem renamed_renamed (name other : String) (face : Face) :
    (face.renamed name).renamed other = face.renamed other := by
  rcases face with ⟨kind, tokens⟩
  cases hkind : kind.nameIndex? with
  | none => simp only [renamed, hkind]
  | some number => simp only [renamed, hkind, renameNth_renameNth]

/-- The name that was given is the name that is read. -/
theorem name?_renamed (name : String) (face : Face) :
    (face.renamed name).name? = face.name?.map (Option.map fun _ => name) := by
  rcases face with ⟨kind, tokens⟩
  cases hkind : kind.nameIndex? with
  | none => simp only [renamed, name?, hkind, Option.map_none]
  | some number =>
    simp only [renamed, name?, hkind, Option.map_some, identifiersOf_renameNth,
      List.getElem?_modify_eq, Option.map_eq_map, Option.map_map]
    rfl

/-- Giving an element the name that it has changes nothing. -/
theorem renamed_of_name? {name : String} {face : Face} (h : face.name? = some (some name)) :
    face.renamed name = face := by
  rcases face with ⟨kind, tokens⟩
  cases hkind : kind.nameIndex? with
  | none => simp only [renamed, hkind]
  | some number =>
    simp only [name?, hkind, Option.map_some, Option.some_inj] at h
    obtain ⟨token, htoken, rfl⟩ := Option.map_eq_some_iff.1 h
    simp only [renamed, hkind, renameNth_self htoken]

/-- The face with the name that it is given, if it is given one. -/
def update (face : Face) : Option String → Face
  | none => face
  | some name => face.renamed name

theorem update_update (face : Face) (first last : Option String) :
    (face.update first).update last = face.update (last.or first) := by
  cases last with
  | none => rfl
  | some name =>
    cases first with
    | none => rfl
    | some other => exact renamed_renamed other name face

theorem name?_update (face : Face) (given : Option String) :
    (face.update given).name? = face.name?.map (Option.map fun name => given.getD name) := by
  cases given with
  | none =>
    change face.name? = face.name?.map (Option.map fun name => name)
    simp
  | some name => exact face.name?_renamed name

end Face

namespace Named

/-- An element is told by its node and by which identifier names it. -/
theorem map_ofNode? (node : Node) :
    (ofNode? node).map (fun named => (named.raw, named.nameIndex)) =
      node.kind.nameIndex?.map fun number => (node, number) := by
  rw [ofNode?]
  cases helement : Element.ofNode? node with
  | none =>
    unfold Element.ofNode? at helement
    split at helement <;> simp_all [NodeKind.nameIndex?]
  | some element =>
    unfold Element.ofNode? at helement
    split at helement
    · cases helement
      simp [*, NodeKind.nameIndex?]
    · cases helement
      simp [*, NodeKind.nameIndex?, raw, nameIndex]
    · cases helement
      simp [*, NodeKind.nameIndex?, raw, nameIndex]
    · cases helement
    · cases helement

theorem name?_eq (named : Named) :
    named.name? = named.raw.identifiers[named.nameIndex]?.map Leaf.text := by
  rw [name?, nameToken?_eq]

end Named

namespace Node

variable {node : Node}

/-- The identifiers of a node are those of its face. -/
theorem map_token_identifiers (node : Node) :
    node.identifiers.map Leaf.token = identifiersOf node.tree.face.tokens := by
  have htokens (index : Nat) (children : List Child) :
      ((node.partsFrom index children).filterMap Part.leaf?).map Leaf.token =
        (children.map Child.token?).reduceOption := by
    induction children generalizing index with
    | nil => rfl
    | cons child rest ih =>
      cases child with
      | token offset id token => exact congrArg (token :: ·) (ih (index + 1))
      | node offset sub => exact ih (index + 1)
  have hall := htokens 0 node.tree.children
  rw [← parts_eq_partsFrom] at hall
  rw [identifiersOf, Tree.face, ← hall, List.filter_map]
  rfl

/-- The name of the element of a node is read off its face. -/
theorem map_name?_ofNode? (node : Node) :
    (Named.ofNode? node).map Named.name? = node.tree.face.name? := by
  have hname (found : Option Named) : found.map Named.name? =
      (found.map fun named => (named.raw, named.nameIndex)).map fun entry =>
        entry.1.identifiers[entry.2]?.map Leaf.text := by
    rw [Option.map_map]
    congr 1
    funext named
    exact named.name?_eq
  rw [hname, Named.map_ofNode?, Option.map_map, Face.name?, ← map_token_identifiers]
  simp only [List.getElem?_map, Option.map_map]
  rfl

/-- The identifier with a given number is found at its index. -/
theorem exists_renameNth_eq_set (name : String) {children : List Child} {index number : Nat}
    {leaf : Leaf}
    (h : (((node.partsFrom index children).filterMap Part.leaf?).filter fun leaf =>
      leaf.kind = .identifier)[number]? = some leaf) :
    ∃ place, leaf.index = index + place ∧ renameNth name number (children.map Child.token?) =
      (children.map Child.token?).set place (some (leaf.token.withText name)) := by
  induction children generalizing index number with
  | nil => cases h
  | cons child rest ih =>
    -- The identifier stands behind the first child.
    have hgo (number' : Nat)
        (hrest : (((node.partsFrom (index + 1) rest).filterMap Part.leaf?).filter fun leaf =>
          leaf.kind = .identifier)[number']? = some leaf)
        (hname : renameNth name number ((child :: rest).map Child.token?) =
          child.token? :: renameNth name number' (rest.map Child.token?)) :
        ∃ place, leaf.index = index + place ∧
          renameNth name number ((child :: rest).map Child.token?) =
            ((child :: rest).map Child.token?).set place (some (leaf.token.withText name)) := by
      obtain ⟨place, hindex, hset⟩ := ih hrest
      refine ⟨place + 1, by omega, ?_⟩
      rw [hname, hset]
      rfl
    cases child with
    | node offset sub => exact hgo number h rfl
    | token offset id token =>
      by_cases hkind : token.kind = .identifier
      · cases number with
        | zero =>
          obtain rfl : _ = leaf := by simpa [part, Part.leaf?, Leaf.kind, hkind] using h
          exact ⟨0, rfl, by simp [renameNth, Child.token?, hkind]⟩
        | succ number =>
          refine hgo number ?_ (by simp [renameNth, Child.token?, hkind])
          simpa [part, Part.leaf?, Leaf.kind, hkind] using h
      · refine hgo number ?_ (by simp [renameNth, Child.token?, hkind])
        simpa [part, Part.leaf?, Leaf.kind, hkind] using h

/-- The copy of an element with another name has its face with another name. -/
theorem face_treeWith {number : Nat} {leaf : Leaf} (hkind : node.kind.nameIndex? = some number)
    (hleaf : node.identifiers[number]? = some leaf) (origin : Nat) (name : String) :
    (node.treeWith origin leaf.index (leaf.token.withText name)).face =
      node.tree.face.renamed name := by
  rw [identifiers, tokens, parts_eq_partsFrom] at hleaf
  obtain ⟨place, hindex, hset⟩ := exists_renameNth_eq_set name hleaf
  rw [Nat.zero_add] at hindex
  have hkind' : node.tree.face.kind.nameIndex? = some number := hkind
  have hchildren : (node.treeWith origin leaf.index (leaf.token.withText name)).children =
      LosslessTree.place 0 (node.childrenWith origin leaf.index (leaf.token.withText name)) := rfl
  rw [Tree.face, hchildren, map_token?_place, childrenWith, List.map_set, hindex, Face.renamed,
    hkind']
  simp only [Tree.face, hset]
  rfl

/-- The nodes below an element stand below its copy too, at the same indices. -/
theorem exists_getElem?_treeWith {leaf : Leaf} (hleaf : leaf ∈ node.tokens) (origin : Nat)
    (token : Token) {index offset : Nat} {sub : Tree}
    (h : node.tree.children[index]? = some (.node offset sub)) :
    ∃ moved, (node.treeWith origin leaf.index token).children[index]? = some (.node moved sub) := by
  have hne : leaf.index ≠ index := by
    rintro rfl
    have hpart := getElem?_parts_of_mem_tokens hleaf
    rw [getElem?_parts, h] at hpart
    cases hpart
  have hmoved := getElem?_place 0 index (node.childrenWith origin leaf.index token)
  rw [childrenWith, List.getElem?_set_ne hne, h] at hmoved
  exact ⟨_, hmoved⟩

/-- **The copy of an element differs from it in its own face only.** -/
theorem faceAt_treeWith {number : Nat} {leaf : Leaf} (hkind : node.kind.nameIndex? = some number)
    (hleaf : node.identifiers[number]? = some leaf) (origin : Nat) (name : String)
    (place : List Nat) :
    (node.treeWith origin leaf.index (leaf.token.withText name)).faceAt place =
      (node.tree.faceAt place).map fun face => if place = [] then face.renamed name else face := by
  cases place with
  | nil => exact congrArg some (face_treeWith hkind hleaf origin name)
  | cons index rest =>
    have hself (found : Option Face) :
        (found.map fun face => if index :: rest = [] then face.renamed name else face) = found := by
      cases found <;> rfl
    rw [hself]
    by_cases hgap : node.tree.face.tokens[index]? = some none
    · obtain ⟨offset, sub, hold⟩ := Tree.getElem?_tokens_eq_iff.1 hgap
      obtain ⟨moved, hnew⟩ := exists_getElem?_treeWith
        (List.mem_filter.1 (List.mem_of_getElem? hleaf)).1 origin (leaf.token.withText name) hold
      rw [Tree.faceAt_cons_of_node hold, Tree.faceAt_cons_of_node hnew]
    · rw [Tree.faceAt_cons_eq_none hgap, Tree.faceAt_cons_eq_none fun hnew => hgap ?_]
      obtain ⟨moved, sub, hnew⟩ := Tree.getElem?_tokens_eq_iff.1 hnew
      obtain ⟨offset, hold⟩ := exists_getElem?_of_place hnew
      exact Tree.getElem?_tokens_eq_iff.2 ⟨offset, sub, getElem?_of_childrenWith hold⟩

end Node

end LosslessTree
