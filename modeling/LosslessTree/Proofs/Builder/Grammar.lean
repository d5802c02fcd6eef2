import LosslessTree.Proofs.Builder.Step

/-!
# The streams that a builder accepts

A builder decides with a stack, a flag and a special case for the root whether an event fits. What
it accepts in the end is a simple grammar: the start of a node, a well-nested body, and optionally
the end of the node. The tree it builds is the one that the stream denotes, since at every moment
the open nodes, read from the outermost to the innermost, spell the events taken so far.

## Main definitions

* `Nested`: well-nested streams.
* `Builder.stream`: the events that the state of a builder stands for.
* `Builder.Runs`: taking events one after the other.
* `Builder.build`: the tree of a stream, built by a new builder.

## Main results

* `Builder.Takes.stream_eq`, `Builder.Runs.stream_eq`: a builder loses nothing.
* `Nested.exists_runs`: a well-nested stream is taken inside any open node, as long as it fits.
* `Builder.build_ok_iff_nested`: the streams that are accepted, and the trees built from them.
-/

namespace LosslessTree

/-- Well-nested streams: tokens, and nodes that are started and closed again. -/
inductive Nested : List Event → Prop
  | nil : Nested []
  | push (token : Token) {rest : List Event} (hrest : Nested rest) : Nested (.push token :: rest)
  | node (kind : NodeKind) {inner rest : List Event} (hinner : Nested inner)
      (hrest : Nested rest) : Nested (.start kind :: inner ++ .close :: rest)

mutual

/-- What stands before and behind a tree does not disturb the nesting. -/
theorem nested_events_append :
    (tree : Tree) → {rest : List Event} → Nested rest → Nested (tree.events ++ rest)
  | ⟨_, kind, _, children⟩, rest, hrest => by
    rw [Tree.events, List.append_assoc]
    exact .node kind (nested_childrenEvents children) hrest

theorem nested_childrenEvents : (children : List Child) → Nested (childrenEvents children)
  | [] => .nil
  | .token _ _ token :: rest => .push token (nested_childrenEvents rest)
  | .node _ tree :: rest => nested_events_append tree (nested_childrenEvents rest)

end

/-! ### The stream of a builder -/

namespace OpenNode

/-- The events that an open node stands for. -/
def events (node : OpenNode) : List Event :=
  .start node.draft.kind :: childrenEvents node.draft.children

theorem events_grow (node : OpenNode) (child : Child) :
    (node.grow child).events = node.events ++ child.events := by
  simp [events, grow, childrenEvents_cons, childrenEvents]

theorem events_tree (node : OpenNode) : node.tree.events = node.events ++ [.close] :=
  node.tree.events_eq

end OpenNode

/-- The events that open nodes stand for, from the outermost to the innermost. -/
def stackEvents : List OpenNode → List Event
  | [] => []
  | innermost :: outer => stackEvents outer ++ innermost.events

namespace Builder

/-- The events that the state of a builder stands for. -/
def stream (builder : Builder) : List Event :=
  stackEvents builder.stack ++ if builder.rootClosed then [.close] else []

variable {builder middle after : Builder} {event : Event} {events : List Event}
  {lines : List TraceLine}

/-- **A builder loses nothing**: each event it takes is the next one of its stream. -/
theorem Takes.stream_eq (h : builder.Takes event after lines) :
    after.stream = builder.stream ++ [event] := by
  cases h with
  | start kind hopen =>
    simp [stream, hopen, stackEvents, OpenNode.events, Draft.empty, childrenEvents]
  | push token hopen hstack hfits =>
    simp [stream, hopen, hstack, stackEvents, OpenNode.events_grow, Child.events]
  | closeRoot hopen hstack => simp [stream, hopen]
  | closeInner hopen hstack =>
    simp [stream, hopen, hstack, stackEvents, OpenNode.events_grow, Child.events,
      OpenNode.events_tree]

/-- Taking events one after the other, with the trace lines written. -/
inductive Runs : Builder → List Event → Builder → List TraceLine → Prop
  | nil (builder : Builder) : Runs builder [] builder []
  | cons {builder middle after : Builder} {event : Event} {rest : List Event}
      {lines lines' : List TraceLine} (htakes : builder.Takes event middle lines)
      (hrest : Runs middle rest after lines') : Runs builder (event :: rest) after (lines ++ lines')

namespace Runs

theorem single (h : builder.Takes event after lines) : Runs builder [event] after lines := by
  simpa using Runs.cons h (.nil after)

theorem append {front back : List Event} {lines' : List TraceLine}
    (h : Runs builder front middle lines) (hback : Runs middle back after lines') :
    Runs builder (front ++ back) after (lines ++ lines') := by
  induction h with
  | nil => exact hback
  | cons htakes _ ih =>
    rw [List.cons_append, List.append_assoc]
    exact .cons htakes (ih hback)

theorem stream_eq (h : Runs builder events after lines) :
    after.stream = builder.stream ++ events := by
  induction h with
  | nil => simp
  | cons htakes _ ih => rw [ih, htakes.stream_eq, List.append_assoc, List.singleton_append]

theorem sound (h : Runs builder events after lines) (hsound : builder.Sound) : after.Sound := by
  induction h with
  | nil => exact hsound
  | cons htakes _ ih => exact ih (hsound.takes htakes)

end Runs

namespace Sound

theorem run_eq_of_runs (h : builder.Sound) (hruns : Runs builder events after lines) :
    builder.run events = .taken after lines := by
  induction hruns with
  | nil => rfl
  | cons htakes _ ih =>
    rw [run, h.step_eq_of_takes htakes]
    simp only [Reply.taken, ih (h.takes htakes)]

/-- A run without refusal takes all events. -/
theorem exists_runs (h : builder.Sound) (hnone : (builder.run events).error? = none) :
    ∃ after lines, Runs builder events after lines := by
  induction events generalizing builder with
  | nil => exact ⟨builder, [], .nil builder⟩
  | cons event rest ih =>
    rcases h.step_cases event with ⟨middle, lines, htakes, hstep⟩ | ⟨-, error, hstep⟩
    · rw [run, hstep] at hnone
      obtain ⟨after, lines', hrest⟩ := ih (h.takes htakes) hnone
      exact ⟨after, lines ++ lines', .cons htakes hrest⟩
    · rw [run, hstep] at hnone
      cases hnone

end Sound

/-! ### Taking an event inside an open node -/

theorem exists_takes_push (token : Token) {innermost : OpenNode} {outer : List OpenNode}
    (hopen : builder.rootClosed = false) (hstack : builder.stack = innermost :: outer)
    (hfits : builder.position + token.size < wordSize) :
    ∃ after, builder.Takes (.push token) after [] ∧ after.rootClosed = false ∧
      (∃ grown, after.stack = grown :: outer) ∧ after.position = builder.position + token.size :=
  ⟨_, .push token hopen hstack hfits, hopen, ⟨_, rfl⟩, rfl⟩

theorem exists_takes_start (builder : Builder) (kind : NodeKind)
    (hopen : builder.rootClosed = false) :
    ∃ after lines, builder.Takes (.start kind) after lines ∧ after.rootClosed = false ∧
      (∃ node, after.stack = node :: builder.stack) ∧ after.position = builder.position :=
  ⟨_, _, .start kind hopen, hopen, ⟨_, rfl⟩, rfl⟩

theorem exists_takes_close {innermost parent : OpenNode} {outer : List OpenNode}
    (hopen : builder.rootClosed = false) (hstack : builder.stack = innermost :: parent :: outer) :
    ∃ after lines, builder.Takes .close after lines ∧ after.rootClosed = false ∧
      (∃ grown, after.stack = grown :: outer) ∧ after.position = builder.position :=
  ⟨_, _, .closeInner hopen hstack, hopen, ⟨_, rfl⟩, rfl⟩

end Builder

/-- **A well-nested stream is taken inside any open node**, as long as it fits, and leaves the
nodes around that one alone. -/
theorem Nested.exists_runs {body : List Event} (h : Nested body) {builder : Builder}
    {innermost : OpenNode} {outer : List OpenNode} (hopen : builder.rootClosed = false)
    (hstack : builder.stack = innermost :: outer)
    (hfits : builder.position + streamSize body < wordSize) :
    ∃ after lines grown, builder.Runs body after lines ∧ after.rootClosed = false ∧
      after.stack = grown :: outer ∧ after.position = builder.position + streamSize body := by
  induction h generalizing builder innermost outer with
  | nil => exact ⟨builder, [], innermost, .nil builder, hopen, hstack, rfl⟩
  | push token hrest ih =>
    simp only [streamSize_cons, Event.size] at hfits ⊢
    obtain ⟨pushed, hpush, hopen₁, ⟨node₁, hstack₁⟩, hposition₁⟩ :=
      Builder.exists_takes_push token hopen hstack (by omega)
    obtain ⟨after, lines, grown, hruns, hopen', hstack', hposition⟩ :=
      ih hopen₁ hstack₁ (by omega)
    exact ⟨after, _, grown, .cons hpush hruns, hopen', hstack', by omega⟩
  | node kind hinner hrest ihinner ihrest =>
    simp only [List.cons_append, streamSize_cons, streamSize_append, Event.size, Nat.zero_add]
      at hfits ⊢
    -- The node is opened, its body is taken inside it, and it is closed into `innermost`.
    obtain ⟨opened, _, hstart, hopen₁, ⟨node₁, hstack₁⟩, hposition₁⟩ :=
      Builder.exists_takes_start builder kind hopen
    obtain ⟨filled, _, node₂, hbody, hopen₂, hstack₂, hposition₂⟩ :=
      ihinner hopen₁ hstack₁ (by omega)
    obtain ⟨closed, _, hclose, hopen₃, ⟨node₃, hstack₃⟩, hposition₃⟩ :=
      Builder.exists_takes_close hopen₂ (hstack₂.trans (congrArg _ hstack))
    obtain ⟨after, _, grown, hruns, hopen', hstack', hposition⟩ :=
      ihrest hopen₃ hstack₃ (by omega)
    exact ⟨after, _, grown, .cons hstart (hbody.append (.cons hclose hruns)), hopen', hstack',
      by omega⟩

namespace Builder

/-! ### Building a tree -/

/-- The root of the tree of a stream: all events are offered to a new builder, which is finished if
it took them all. -/
def build (origin : Nat) (events : List Event) : Except BuildError Node :=
  match ((new origin).run events).error? with
  | some error => .error error
  | none => ((new origin).run events).builder.finish

theorem build_eq_ok_iff {origin : Nat} {events : List Event} {root : Node} :
    build origin events = .ok root ↔ ∃ after lines node,
      (new origin).Runs events after lines ∧ after.stack = [node] ∧ root = .top node.tree := by
  have hsound := sound_new origin
  unfold build
  constructor
  · intro hok
    cases herror : ((new origin).run events).error? with
    | some error =>
      rw [herror] at hok
      cases hok
    | none =>
      rw [herror] at hok
      obtain ⟨after, lines, hruns⟩ := hsound.exists_runs herror
      simp only [hsound.run_eq_of_runs hruns] at hok
      obtain ⟨node, hstack, hroot⟩ := finish_eq_ok_iff.1 hok
      exact ⟨after, lines, node, hruns, hstack, hroot⟩
  · rintro ⟨after, lines, node, hruns, hstack, hroot⟩
    simp only [hsound.run_eq_of_runs hruns, Reply.taken]
    exact finish_eq_ok_iff.2 ⟨node, hstack, hroot⟩

/-- The end of the root may be left out. -/
def OptionallyClosed (kind : NodeKind) (body events : List Event) : Prop :=
  events = .start kind :: body ∨ events = .start kind :: body ++ [.close]

/-- A well-nested stream is built, and the tree reads as the stream again. -/
theorem exists_build_eq_ok {kind : NodeKind} {body events : List Event} (origin : Nat)
    (hbody : Nested body) (hevents : OptionallyClosed kind body events)
    (hfits : streamSize events < wordSize) :
    ∃ tree, build origin events = .ok (.top tree) ∧ tree.LaidOut ∧
      tree.events = .start kind :: body ++ [.close] := by
  have hsize : streamSize events = streamSize body := by
    rcases hevents with rfl | rfl <;> simp [Event.size]
  obtain ⟨opened, _, hstart, hopen, ⟨node, hstack⟩, hposition⟩ :=
    exists_takes_start (new origin) kind rfl
  have hzero : opened.position = 0 := hposition
  obtain ⟨filled, _, root, hruns, hopen', hstack', -⟩ := hbody.exists_runs hopen hstack (by omega)
  have hfill := Runs.cons hstart hruns
  have hroot : root.events = .start kind :: body := by
    have hstream := hfill.stream_eq
    simpa [stream, hopen', hstack', new, stackEvents] using hstream
  have hlaid := (hfill.sound (sound_new origin)).laidOut root (by simp [hstack', new])
  refine ⟨root.tree, ?_, hlaid root.id, by rw [root.events_tree, hroot]⟩
  rcases hevents with rfl | rfl
  · exact build_eq_ok_iff.2 ⟨filled, _, root, hfill, hstack', rfl⟩
  · have hclose := hfill.append (.single (.closeRoot hopen' hstack'))
    exact build_eq_ok_iff.2 ⟨_, _, root, hclose, hstack', rfl⟩

/-- A stream that is built has the form of the grammar. -/
theorem exists_nested_of_build_eq_ok {origin : Nat} {events : List Event} {root : Node}
    (h : build origin events = .ok root) :
    ∃ kind body, Nested body ∧ OptionallyClosed kind body events := by
  obtain ⟨after, lines, node, hruns, hstack, -⟩ := build_eq_ok_iff.1 h
  have hstream := hruns.stream_eq
  refine ⟨node.draft.kind, childrenEvents node.draft.children, nested_childrenEvents _, ?_⟩
  cases hclosed : after.rootClosed with
  | false =>
    left
    simpa [stream, hclosed, hstack, new, stackEvents, OpenNode.events] using hstream.symm
  | true =>
    right
    simpa [stream, hclosed, hstack, new, stackEvents, OpenNode.events] using hstream.symm

/-- **The streams that a builder accepts.** If the tokens of a stream fit a word together, a new
builder takes every event and can be finished exactly if the stream starts a node, goes on with a
well-nested body and closes the node again or leaves it to be closed by the end; and then the tree
reads as the stream again, with the same kinds and the same tokens. -/
theorem build_ok_iff_nested (origin : Nat) (events : List Event)
    (hfits : streamSize events < wordSize) :
    ((∃ root, build origin events = .ok root) ↔
      ∃ kind body, Nested body ∧ OptionallyClosed kind body events) ∧
    ∀ kind body, Nested body → OptionallyClosed kind body events →
      ∃ tree, build origin events = .ok (.top tree) ∧
        tree.events = .start kind :: body ++ [.close] := by
  have hbuild : ∀ kind body, Nested body → OptionallyClosed kind body events →
      ∃ tree, build origin events = .ok (.top tree) ∧
        tree.events = .start kind :: body ++ [.close] := by
    intro kind body hbody hevents
    obtain ⟨tree, hok, -, hread⟩ := exists_build_eq_ok origin hbody hevents hfits
    exact ⟨tree, hok, hread⟩
  refine ⟨⟨?_, ?_⟩, hbuild⟩
  · rintro ⟨root, hok⟩
    exact exists_nested_of_build_eq_ok hok
  · rintro ⟨kind, body, hbody, hevents⟩
    obtain ⟨tree, hok, -⟩ := hbuild kind body hbody hevents
    exact ⟨.top tree, hok⟩

/-- A variable followed by a dot, inside a node that is not closed. -/
theorem build_ok_of_variable_dot :
    streamSize [.start .lvalue, .start .identifierVariable, .push (.identifier "ü"), .close,
      .push (.punctuation .dot)] < wordSize ∧
    ∃ tree, build 0 [.start .lvalue, .start .identifierVariable, .push (.identifier "ü"), .close,
        .push (.punctuation .dot)] = .ok (.top tree) ∧
      tree.events = [.start .lvalue, .start .identifierVariable, .push (.identifier "ü"), .close,
        .push (.punctuation .dot), .close] := by
  have hfits : streamSize [.start .lvalue, .start .identifierVariable, .push (.identifier "ü"),
      .close, .push (.punctuation .dot)] < wordSize := by decide +kernel
  have hbody : Nested [.start .identifierVariable, .push (.identifier "ü"), .close,
      .push (.punctuation .dot)] :=
    .node .identifierVariable (.push _ .nil) (.push _ .nil)
  exact ⟨hfits, (build_ok_iff_nested 0 _ hfits).2 .lvalue _ hbody (.inl rfl)⟩

end Builder

end LosslessTree
