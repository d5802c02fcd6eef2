import LosslessTree.Proofs.Rename.Face
import LosslessTree.Proofs.Transform.Edits

/-!
# Names as registers

The names of a tree are like registers, one for each named element: renaming an element writes the
register at its place and touches no other, a later name overwrites an earlier one, and writing the
name that is there changes nothing. This holds along a whole run of renames, each of which finds its
element in the tree that the one before has made, although each of them copies all nodes above the
element and moves all that stands behind it, and although one element may stand in another.

The argument goes place by place: a rename changes the face of the element and no other.

## Main definitions

* `Naming`, `lastName`: a name for the element at a place, and the last one that is given to it.
* `Node.nameAt?`: the name of the element at a place.
* `Node.renameAt`, `Node.renameInTurn`: one rename, and renames one after the other.
* `Renamed`: what renames make of a tree, place by place.

## Main results

* `Renamed.trans`: renames can be made one after the other.
* `Forest.Sound.renamed_renameAt`, `Forest.Sound.renamed_renameInTurn`: one rename and renames in
  turn make renamed trees.
* `Forest.Reachable.renameInTurn_registers`: names are registers.
-/

namespace LosslessTree

/-- A name that is to be given to the element at a place. -/
structure Naming where
  /-- The child indices that lead to the element from the root. -/
  path : List Nat
  name : String

/-- The last name that is given to the element at a place. -/
def lastName (path : List Nat) (namings : List Naming) : Option String :=
  (namings.reverse.find? fun naming => naming.path = path).map Naming.name

theorem lastName_append (path : List Nat) (firsts lasts : List Naming) :
    lastName path (firsts ++ lasts) = (lastName path lasts).or (lastName path firsts) := by
  rw [lastName, List.reverse_append, List.find?_append, Option.map_or]
  rfl

theorem exists_of_lastName_eq {path : List Nat} {namings : List Naming} {name : String}
    (h : lastName path namings = some name) : ∃ naming ∈ namings, naming.path = path := by
  obtain ⟨naming, hfind, -⟩ := Option.map_eq_some_iff.1 h
  refine ⟨naming, List.mem_reverse.1 (List.mem_of_find?_eq_some hfind), ?_⟩
  simpa using List.find?_some hfind

theorem lastName_singleton (path : List Nat) (naming : Naming) :
    lastName path [naming] = if naming.path = path then some naming.name else none := by
  by_cases hpath : naming.path = path <;> simp [lastName, hpath]

namespace Node

/-- The name of the element at a place, if there is an element, and if it has a name. -/
def nameAt? (root : Node) (path : List Nat) : Option (Option String) :=
  ((root.at? path).bind Named.ofNode?).map Named.name?

/-- The root of the tree in which the element at a place has another name, made by operation number
`origin`; none if there is no element or it has no name, or if a length overflows. -/
def renameAt (origin : Nat) (naming : Naming) (root : Node) : Option Node := do
  let named ← (root.at? naming.path).bind Named.ofNode?
  let outcome ← named.rename origin naming.name
  outcome.result.toOption

/-- Renames elements one after the other, each with the number of its operation, and each in the
tree that the one before has made. -/
def renameInTurn (steps : List (Nat × Naming)) (root : Node) : Option Node :=
  steps.foldlM (fun root step => root.renameAt step.1 step.2) root

theorem nameAt?_eq (root : Node) (path : List Nat) :
    root.nameAt? path = (root.tree.faceAt path).bind Face.name? := by
  rw [nameAt?, Option.map_bind, Tree.faceAt, ← map_tree_at?, Option.map_map, Option.bind_map]
  congr 1
  funext node
  exact node.map_name?_ofNode?

/-- What a rename at a place was made of. -/
theorem exists_of_renameAt {root new : Node} {origin : Nat} {naming : Naming}
    (h : root.renameAt origin naming = some new) :
    ∃ (named : Named) (outcome : Outcome Node), root.at? naming.path = some named.raw ∧
      named.raw.kind.nameIndex? = some named.nameIndex ∧
      named.rename origin naming.name = some outcome ∧ outcome.result = .ok new := by
  obtain ⟨named, hnamed, hrenames⟩ := Option.bind_eq_some_iff.1 h
  obtain ⟨target, hat, hofNode⟩ := Option.bind_eq_some_iff.1 hnamed
  obtain ⟨outcome, hrename, hresult⟩ := Option.bind_eq_some_iff.1 hrenames
  have hmap := Named.map_ofNode? target
  rw [hofNode] at hmap
  obtain ⟨number, hnumber, hsame⟩ := Option.map_eq_some_iff.1 hmap.symm
  obtain ⟨rfl, rfl⟩ := Prod.mk.inj hsame
  refine ⟨named, outcome, hat, hnumber, hrename, ?_⟩
  cases hcase : outcome.result with
  | error overflow => simp [hcase, Except.toOption] at hresult
  | ok found =>
    obtain rfl : found = new := by simpa [hcase, Except.toOption] using hresult
    rfl

/-- The rule that replaces one node performs an edit. -/
theorem Within.performs_only {tree : Tree} {target : Node} (h : (top tree).Within target)
    (replacement : Node) :
    Performs (only target replacement) [⟨target.path, replacement⟩] tree where
  replaces {node edit} hnode hedit hpath := by
    obtain rfl := List.mem_singleton.1 hedit
    obtain rfl := hnode.eq_of_path_eq h hpath
    exact only_self node replacement
  keeps {node} hnode hnone := by
    refine hnode.only_of_ne h (fun heq => ?_) replacement
    exact hnone _ (.head _) (congrArg path heq)

end Node

/-- What renames make of a tree: each renamed element had a name, and at each place there is the old
face with the last name given to it. -/
structure Renamed (namings : List Naming) (old new : Tree) : Prop where
  named : ∀ naming ∈ namings, ∃ face name,
    old.faceAt naming.path = some face ∧ face.name? = some (some name)
  faceAt_eq : ∀ place, new.faceAt place =
    (old.faceAt place).map fun face => face.update (lastName place namings)

namespace Renamed

variable {namings : List Naming} {old new : Tree}

theorem refl (tree : Tree) : Renamed [] tree tree where
  named := by rintro _ ⟨⟩
  faceAt_eq _ := Option.map_id'.symm

/-- An element that is replaced by its copy with another name is renamed. -/
theorem of_edited {naming : Naming} {target : Node} {origin number : Nat} {leaf : Leaf}
    (hat : (Node.top old).at? naming.path = some target)
    (hkind : target.kind.nameIndex? = some number)
    (hleaf : target.identifiers[number]? = some leaf)
    (h : Edited [⟨naming.path,
      .top (target.treeWith origin leaf.index (leaf.token.withText naming.name))⟩] old new) :
    Renamed [naming] old new := by
  have htree : old.at? naming.path = some target.tree := by
    have hmap := (Node.top old).map_tree_at? naming.path
    rw [hat] at hmap
    exact hmap.symm
  constructor
  · intro other hother
    obtain rfl := List.mem_singleton.1 hother
    refine ⟨target.tree.face, leaf.text, congrArg (Option.map Tree.face) htree, ?_⟩
    have hkind' : target.tree.face.kind.nameIndex? = some number := hkind
    rw [Face.name?, hkind', ← Node.map_token_identifiers]
    simp [hleaf, Leaf.text]
  · intro place
    rw [lastName_singleton]
    by_cases hbelow : naming.path <+: place
    · obtain ⟨rest, rfl⟩ := hbelow
      rw [h.replaced (.head _), Node.tree_top, Node.faceAt_treeWith hkind hleaf,
        Tree.faceAt_append htree]
      congr 1
      funext face
      cases rest <;> simp [Face.update]
    · have hne : naming.path ≠ place := fun heq => hbelow (heq ▸ List.prefix_rfl)
      rw [if_neg hne]
      refine (h.others fun edit hedit => ?_).trans Option.map_id'.symm
      obtain rfl := List.mem_singleton.1 hedit
      exact hbelow

/-- **Renames can be made one after the other.** -/
theorem trans {firsts lasts : List Naming} {mid : Tree} (h : Renamed firsts old mid)
    (hlasts : Renamed lasts mid new) : Renamed (firsts ++ lasts) old new where
  named naming hnaming := by
    rcases List.mem_append.1 hnaming with hmem | hmem
    · exact h.named naming hmem
    · obtain ⟨face, name, hface, hname⟩ := hlasts.named naming hmem
      rw [h.faceAt_eq] at hface
      obtain ⟨before, hbefore, rfl⟩ := Option.map_eq_some_iff.1 hface
      rw [Face.name?_update] at hname
      obtain ⟨found, hfound, htext⟩ := Option.map_eq_some_iff.1 hname
      obtain ⟨text, rfl, -⟩ := Option.map_eq_some_iff.1 htext
      exact ⟨before, text, hbefore, hfound⟩
  faceAt_eq place := by
    rw [hlasts.faceAt_eq, h.faceAt_eq, Option.map_map, lastName_append]
    congr 1
    funext face
    exact face.update_update _ _

/-- The name that is read at a place is the last one given to it, or the old one. -/
theorem nameAt?_eq (h : Renamed namings old new) (path : List Nat) :
    (Node.top new).nameAt? path = ((Node.top old).nameAt? path).map
      (Option.map fun name => (lastName path namings).getD name) := by
  rw [Node.nameAt?_eq, Node.nameAt?_eq, Node.tree_top, Node.tree_top, h.faceAt_eq, Option.bind_map,
    Option.map_bind]
  congr 1
  funext face
  exact face.name?_update _

/-- At a place that is given a name there was a name. -/
theorem exists_nameAt?_eq (h : Renamed namings old new) {path : List Nat} {name : String}
    (hlast : lastName path namings = some name) :
    ∃ before, (Node.top old).nameAt? path = some (some before) := by
  obtain ⟨naming, hmem, rfl⟩ := exists_of_lastName_eq hlast
  obtain ⟨face, before, hface, hname⟩ := h.named naming hmem
  refine ⟨before, ?_⟩
  rw [Node.nameAt?_eq, Node.tree_top, hface]
  exact hname

/-- Giving the elements of a tree the names that they have leaves all faces as they are. -/
theorem faceAt_eq_self (h : Renamed namings old new)
    (hnames : ∀ path name, lastName path namings = some name →
      (Node.top old).nameAt? path = some (some name)) (place : List Nat) :
    new.faceAt place = old.faceAt place := by
  rw [h.faceAt_eq]
  cases hlast : lastName place namings with
  | none => exact Option.map_id'
  | some name =>
    have hname := hnames place name hlast
    rw [Node.nameAt?_eq, Node.tree_top] at hname
    obtain ⟨face, hface, hname⟩ := Option.bind_eq_some_iff.1 hname
    rw [hface]
    exact congrArg some (Face.renamed_of_name? hname)

end Renamed

namespace Forest

variable {forest : Forest} {origin : Nat} {tree : Tree} {root : Node}

/-- **One rename** changes one face. -/
theorem Sound.renamed_renameAt (h : forest.Sound) (htree : tree ∈ forest.trees)
    (hfresh : origin ∉ forest.origins) {naming : Naming}
    (hok : (Node.top tree).renameAt origin naming = some root) :
    ∃ new, root = .top new ∧ (forest.add origin new).Sound ∧ Renamed [naming] tree new := by
  obtain ⟨named, outcome, hat, hkind, hrename, hresult⟩ := Node.exists_of_renameAt hok
  obtain ⟨hwithin, hpath⟩ := Node.at?_eq_some_iff.1 hat
  have hholds : forest.Holds named.raw := ⟨tree, htree, hwithin⟩
  have hsound := h.step (.rename hfresh hholds hrename hresult)
  obtain ⟨leaf, renamed, new, hleaf, hcopy, hrenewed, rfl⟩ := Named.exists_of_rename hrename hresult
  have hready := h.transformable_only hfresh hholds hcopy
  rw [hwithin.root_eq] at hready hrenewed
  have hedited := hready.edited (h.distinct hfresh) hrenewed (hwithin.performs_only (.top renamed))
    (List.pairwise_singleton _ _) (by simpa [hpath] using ⟨_, hat⟩)
  obtain rfl := (Node.yields_withToken (h.laidOut_of_holds hholds) origin leaf.index
    (leaf.token.withText naming.name)).eq_of_eq_ok hcopy
  rw [Named.nameToken?_eq] at hleaf
  exact ⟨new, rfl, hsound, .of_edited hat hkind hleaf (hpath ▸ hedited)⟩

/-- **Renames in turn** leave at each place the last name given to it. -/
theorem Sound.renamed_renameInTurn {steps : List (Nat × Naming)} (h : forest.Sound)
    (htree : tree ∈ forest.trees) (hunused : forest.Unused (steps.map Prod.fst))
    (hok : (Node.top tree).renameInTurn steps = some root) :
    ∃ new, root = .top new ∧ new.LaidOut ∧ Renamed (steps.map Prod.snd) tree new := by
  induction steps generalizing forest tree with
  | nil =>
    cases hok
    exact ⟨tree, rfl, h.laidOut htree, .refl tree⟩
  | cons step rest ih =>
    rw [Node.renameInTurn, List.foldlM_cons] at hok
    obtain ⟨mid, hmid, hrest⟩ := Option.bind_eq_some_iff.1 hok
    obtain ⟨first, rfl, hsound, hfirst⟩ :=
      h.renamed_renameAt htree (hunused.fresh step.1 (.head _)) hmid
    obtain ⟨new, rfl, hlaid, hlater⟩ := ih hsound (.head _) (hunused.tail first) hrest
    exact ⟨new, rfl, hlaid, hfirst.trans hlater⟩

/-- **Names are registers.** Elements of a tree of a run are renamed one after the other, each in
the tree that the rename before has made. Then each renamed element has the last name that was given
to it, and every other element has the name that it had. What is seen of the result depends on the
last names only: it is the same for any other renames with the same last names, and it is what is
seen of the old tree if these are the names that the elements have there. -/
theorem Reachable.renameInTurn_registers (h : forest.Reachable) (htree : tree ∈ forest.trees)
    {steps : List (Nat × Naming)} (hunused : forest.Unused (steps.map Prod.fst))
    (hok : (Node.top tree).renameInTurn steps = some root) :
    (∀ path name, lastName path (steps.map Prod.snd) = some name →
      root.nameAt? path = some (some name)) ∧
    (∀ path, lastName path (steps.map Prod.snd) = none →
      root.nameAt? path = (Node.top tree).nameAt? path) ∧
    (∀ (others : List (Nat × Naming)) (last : Node), forest.Unused (others.map Prod.fst) →
      (Node.top tree).renameInTurn others = some last →
        (∀ path, lastName path (steps.map Prod.snd) = lastName path (others.map Prod.snd)) →
          root.dump = last.dump) ∧
    ((∀ path name, lastName path (steps.map Prod.snd) = some name →
      (Node.top tree).nameAt? path = some (some name)) → root.dump = (Node.top tree).dump) := by
  obtain ⟨new, rfl, hlaid, hrenamed⟩ := h.sound.renamed_renameInTurn htree hunused hok
  refine ⟨fun path name hlast => ?_, fun path hlast => ?_,
    fun others last hunused' hok' hsame => ?_, fun hnames => ?_⟩
  · obtain ⟨before, hbefore⟩ := hrenamed.exists_nameAt?_eq hlast
    rw [hrenamed.nameAt?_eq, hbefore, hlast]
    rfl
  · rw [hrenamed.nameAt?_eq, hlast]
    simp
  · obtain ⟨other, rfl, hlaid', hrenamed'⟩ := h.sound.renamed_renameInTurn htree hunused' hok'
    refine Node.dump_eq_of_faceAt_eq hlaid hlaid' fun place => ?_
    rw [hrenamed.faceAt_eq, hrenamed'.faceAt_eq, hsame]
  · exact Node.dump_eq_of_faceAt_eq hlaid (h.sound.laidOut htree) (hrenamed.faceAt_eq_self hnames)

/-- The tree of `ab`, a variable in which another one stands. -/
def nestedTree : Tree :=
  ⟨⟨0, []⟩, .identifierVariable, 2, [.token 0 ⟨0, [0]⟩ (.identifier "a"),
    .node 1 ⟨⟨0, [1]⟩, .identifierVariable, 1, [.token 0 ⟨0, [1, 0]⟩ (.identifier "b")]⟩]⟩

theorem reachable_nested : (empty.add 0 nestedTree).Reachable :=
  reachable_of_build rfl

/-- Renames of the inner variable of `ab`, of the outer one, and of the inner one again. -/
def detour : List (Nat × Naming) :=
  [(1, ⟨[1], "r10"⟩), (2, ⟨[], "ü"⟩), (3, ⟨[1], ""⟩)]

/-- Renames of the inner and the outer variable of `ab`, with the same last names. -/
def shortcut : List (Nat × Naming) :=
  [(4, ⟨[1], ""⟩), (5, ⟨[], "ü"⟩)]

theorem lastName_detour (path : List Nat) :
    lastName path (detour.map Prod.snd) = lastName path (shortcut.map Prod.snd) := by
  by_cases hinner : [1] = path
  · subst hinner
    rfl
  · by_cases houter : [] = path
    · subst houter
      rfl
    · simp [lastName, detour, shortcut, hinner, houter]

/-- A variable that stands in another one is renamed before and after the other one; only the last
names are left. -/
theorem renameInTurn_nested :
    (empty.add 0 nestedTree).Reachable ∧
    (empty.add 0 nestedTree).Unused (detour.map Prod.fst) ∧
    (empty.add 0 nestedTree).Unused (shortcut.map Prod.fst) ∧
    ∃ root last, (Node.top nestedTree).renameInTurn detour = some root ∧
      (Node.top nestedTree).renameInTurn shortcut = some last ∧
      root.nameAt? [] = some (some "ü") ∧ root.nameAt? [1] = some (some "") ∧
      root.dump = last.dump := by
  have hunused : (empty.add 0 nestedTree).Unused (detour.map Prod.fst) := ⟨by decide, by decide⟩
  have hunused' : (empty.add 0 nestedTree).Unused (shortcut.map Prod.fst) := ⟨by decide, by decide⟩
  have hroot : ((Node.top nestedTree).renameInTurn detour).isSome = true := by decide +kernel
  have hlast : ((Node.top nestedTree).renameInTurn shortcut).isSome = true := by decide +kernel
  obtain ⟨root, hroot⟩ := Option.isSome_iff_exists.1 hroot
  obtain ⟨last, hlast⟩ := Option.isSome_iff_exists.1 hlast
  obtain ⟨hnames, -, hdump, -⟩ :=
    reachable_nested.renameInTurn_registers (.head _) hunused hroot
  exact ⟨reachable_nested, hunused, hunused', root, last, hroot, hlast, hnames [] "ü" rfl,
    hnames [1] "" rfl, hdump shortcut last hunused' hlast lastName_detour⟩

end Forest

end LosslessTree
