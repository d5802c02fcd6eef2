import LosslessTree.Proofs.Builder.Grammar

/-!
# Builders that are used further after a refusal

A builder can be used further after it has refused an event. Whoever does so gets what a new builder
makes of the events that were taken: the open nodes are the same, the root is closed or not as it is
there, and finishing has the same outcome. Only the position remembers the refusals, and only those
of tokens that fitted a word but had no place: it is ahead by their lengths.

## Main definitions

* `Builder.Call`: what a user of a builder calls, an event or many tokens at once.
* `Builder.Reply.Misplaced`, `Builder.Reply.Overflows`: the two reasons to refuse a token.
* `Builder.Attempt`: an event that was offered, with the builder it was offered to.
* `Builder.history`, `Builder.afterCalls`: all events that were offered by calls, and the builder
  after them.
* `Builder.taken`, `Builder.misplaced`: the events of a history that were taken, and the tokens
  that had no place.

## Main results

* `Builder.push_misplaced_iff`, `Builder.Attempt.misplaced_iff`: when there is no place for a token.
* `Builder.Sound.attempt_cases`: what is left of an event that was offered.
* `Builder.Sound.replay_step`, `Builder.Sound.replay_attempts`, `Builder.Sound.replay_calls`: a
  builder follows the one that is offered the taken events only.
* `Builder.calls_eq_replay`: builders forget what they refuse, but for the position.
-/

namespace LosslessTree

namespace Builder

/-! ### Calls and what comes of them -/

/-- What a user of a builder calls. -/
inductive Call where
  | single (event : Event)
  /-- Tokens that are offered one after the other, up to the first one that is refused. -/
  | pushAll (tokens : List Token)

/-- The events that a call offers if none is refused. -/
def Call.events : Call → List Event
  | single event => [event]
  | pushAll tokens => tokens.map .push

/-- The builder after some calls, going on after those that were refused. -/
def afterCalls (builder : Builder) (calls : List Call) : Builder :=
  calls.foldl (fun b call => (b.run call.events).builder) builder

namespace Reply

/-- The event was refused because no node was open, or because the root was closed. -/
def Misplaced (reply : Reply) : Prop :=
  reply.error? = some .pushedOutside ∨ reply.error? = some .pushedAfterRoot

instance : DecidablePred Misplaced :=
  fun _ => inferInstanceAs (Decidable (_ ∨ _))

/-- The event was refused because a length did not fit a word. -/
def Overflows (reply : Reply) : Prop :=
  ∃ overflow, reply.error? = some (.overflow overflow)

end Reply

/-- An event that was offered, with the builder it was offered to. -/
structure Attempt where
  before : Builder
  event : Event

/-- The builder after the event, with the refusal, if any. -/
def Attempt.reply (attempt : Attempt) : Reply :=
  attempt.before.step attempt.event

/-- The events that are offered out of a list, up to and including the first one refused. -/
def attempts (builder : Builder) : List Event → List Attempt
  | [] => []
  | event :: rest =>
    ⟨builder, event⟩ ::
      match (builder.step event).error? with
      | some _ => []
      | none => (builder.step event).builder.attempts rest

/-- All events that are offered by calls, one after the other. -/
def history (builder : Builder) : List Call → List Attempt
  | [] => []
  | call :: rest =>
    builder.attempts call.events ++ (builder.run call.events).builder.history rest

/-- The events of a history that were taken. -/
def taken (history : List Attempt) : List Event :=
  (history.filter fun attempt => attempt.reply.error?.isNone).map Attempt.event

/-- The tokens of a history that had no place. -/
def misplaced (history : List Attempt) : List Event :=
  (history.filter fun attempt => attempt.reply.Misplaced).map Attempt.event

theorem Reply.Misplaced.isSome {reply : Reply} (h : reply.Misplaced) :
    reply.error?.isSome = true := by
  rcases h with h | h <;> simp [h]

theorem taken_eq_nil {attempt : Attempt} (h : attempt.reply.error?.isSome = true) :
    taken [attempt] = [] := by
  simpa [taken, Option.isSome_iff_ne_none] using h

theorem misplaced_singleton {attempt : Attempt} (h : attempt.reply.Misplaced) :
    misplaced [attempt] = [attempt.event] := by
  simp [misplaced, h]

theorem misplaced_eq_nil {attempt : Attempt} (h : ¬attempt.reply.Misplaced) :
    misplaced [attempt] = [] := by
  simp [misplaced, h]

theorem taken_append (front back : List Attempt) :
    taken (front ++ back) = taken front ++ taken back := by
  simp [taken]

theorem misplaced_append (front back : List Attempt) :
    misplaced (front ++ back) = misplaced front ++ misplaced back := by
  simp [misplaced]

/-! ### Tokens without a place -/

variable {builder replayed : Builder} {event : Event} {lost : Nat}

theorem append_misplaced_iff (builder : Builder) (child : OpenNode → Child)
    (trace : List TraceLine) :
    (builder.append child trace).Misplaced ↔ builder.rootClosed = true ∨ builder.stack = [] := by
  unfold append
  split_ifs with hclosed
  · simp [Reply.Misplaced, Reply.refused, hclosed]
  · split
    · simp [Reply.Misplaced, Reply.refused, *]
    · split <;> simp [Reply.Misplaced, Reply.refused, Reply.taken, *]

/-- A token lacks a place exactly if it fits a word, and no node is open or the root is closed. -/
theorem push_misplaced_iff (builder : Builder) (token : Token) :
    (builder.push token).Misplaced ↔
      builder.position + token.size < wordSize ∧
        (builder.rootClosed = true ∨ builder.stack = []) := by
  have hlen := Measures.add_left token.measures_byteLen builder.position
  unfold push
  cases hposition : token.byteLen >>= checkedAdd builder.position with
  | error o =>
    have hbig := hlen.exists_error_iff.1 ⟨o, hposition⟩
    simp [Reply.Misplaced, Reply.refused, hbig]
  | ok position =>
    have hfits := hlen.of_eq_ok hposition
    simp [append_misplaced_iff, hfits]

theorem not_misplaced_close (builder : Builder) : ¬builder.close.Misplaced := by
  unfold close
  split_ifs with hclosed
  · simp [Reply.Misplaced, Reply.refused]
  · split
    · simp [Reply.Misplaced, Reply.refused]
    · simp [Reply.Misplaced, Reply.taken]
    · next innermost outer hinner _ =>
      -- the node is appended to the one around it, which is there
      rw [append_misplaced_iff]
      rintro (hroot | houter)
      · exact hclosed hroot
      · exact hinner houter

/-- Nothing but a token can lack a place. -/
theorem exists_push_of_misplaced (h : (builder.step event).Misplaced) :
    ∃ token, event = .push token := by
  cases event with
  | start kind =>
    simp only [Reply.Misplaced, step, start] at h
    split_ifs at h <;> simp [Reply.refused, Reply.taken] at h
  | push token => exact ⟨token, rfl⟩
  | close => exact absurd h builder.not_misplaced_close

namespace Attempt

variable {attempt : Attempt}

/-- **What lacks a place** is told by the builder before: these are the tokens that fit a word and
are offered while no node is open or the root is closed. -/
theorem misplaced_iff :
    attempt.reply.Misplaced ↔
      ∃ token, attempt.event = .push token ∧
        attempt.before.position + token.size < wordSize ∧
        (attempt.before.rootClosed = true ∨ attempt.before.stack = []) := by
  constructor
  · intro h
    obtain ⟨token, hpush⟩ := exists_push_of_misplaced h
    rw [reply, hpush] at h
    exact ⟨token, hpush, (push_misplaced_iff _ token).1 h⟩
  · rintro ⟨token, hpush, hplace⟩
    rw [reply, hpush]
    exact (push_misplaced_iff _ token).2 hplace

/-- The length of a token without a place fits a word. -/
theorem exists_byteLen_of_misplaced (h : attempt.reply.Misplaced) :
    ∃ token, attempt.event = .push token ∧ token.byteLen = .ok token.size := by
  obtain ⟨token, hpush, hfits, -⟩ := misplaced_iff.1 h
  exact ⟨token, hpush, token.measures_byteLen.eq_ok (by omega)⟩

end Attempt

/-! ### One event -/

/-- A builder whose position is ahead. -/
def ahead (builder : Builder) (lost : Nat) : Builder :=
  { builder with position := builder.position + lost }

/-- What a builder takes whose position is ahead, the other one takes as well. -/
theorem Takes.of_ahead {after : Builder} {lines : List TraceLine}
    (h : (replayed.ahead lost).Takes event after lines) :
    ∃ next lines', replayed.Takes event next lines' ∧ after = next.ahead lost := by
  cases h with
  | start kind hopen => exact ⟨_, _, .start kind hopen, rfl⟩
  | push token hopen hstack hfits =>
    have hposition :
        replayed.position + lost + token.size = replayed.position + token.size + lost :=
      Nat.add_right_comm ..
    have hfits' : replayed.position + token.size < wordSize := by
      simp only [ahead] at hfits
      omega
    refine ⟨_, _, .push token hopen hstack hfits', ?_⟩
    simp only [ahead, hposition]
  | closeRoot hopen hstack => exact ⟨_, _, .closeRoot hopen hstack, rfl⟩
  | closeInner hopen hstack => exact ⟨_, _, .closeInner hopen hstack, rfl⟩

namespace Sound

/-- **What is left of an event that was offered**: it is taken, or it is a token without a place,
which moves the position past it, or nothing is left of it. -/
theorem attempt_cases {attempt : Attempt} (h : attempt.before.Sound) :
    (∃ after lines, attempt.before.Takes attempt.event after lines ∧
      attempt.reply = .taken after lines) ∨
    (∃ token, attempt.event = .push token ∧ token.byteLen = .ok token.size ∧
      attempt.reply.Misplaced ∧ attempt.reply.builder = attempt.before.ahead token.size) ∨
    (attempt.reply.error?.isSome = true ∧ ¬attempt.reply.Misplaced ∧
      attempt.reply.builder = attempt.before) := by
  rcases attempt with ⟨builder, event⟩
  rcases h.step_cases event with htaken | ⟨hnot, error, hstep⟩
  · exact .inl htaken
  right
  have hreply : Attempt.reply ⟨builder, event⟩ =
      .refused { builder with position := builder.positionAfter event } [] error := hstep
  by_cases hmisplaced : (Attempt.reply ⟨builder, event⟩).Misplaced
  · obtain ⟨token, rfl, hfits, -⟩ := Attempt.misplaced_iff.1 hmisplaced
    refine .inl ⟨token, rfl, token.measures_byteLen.eq_ok (by omega), hmisplaced, ?_⟩
    simp [hreply, Reply.refused, positionAfter, hfits, ahead]
  · refine .inr ⟨by rw [hreply]; rfl, hmisplaced, ?_⟩
    rw [hreply]
    cases event with
    | start kind => rfl
    | close => rfl
    | push token =>
      -- a token that fits and has a place would be taken
      have hbig : ¬builder.position + token.size < wordSize := by
        intro hfits
        have hplace := mt Attempt.misplaced_iff.2 hmisplaced
        rcases hstack : builder.stack with _ | ⟨innermost, outer⟩
        · exact hplace ⟨token, rfl, hfits, .inr hstack⟩
        · have hopen : builder.rootClosed = false :=
            Bool.eq_false_iff.2 fun hclosed => hplace ⟨token, rfl, hfits, .inl hclosed⟩
          exact hnot _ _ (.push token hopen hstack hfits)
      simp [Reply.refused, positionAfter, hbig]

/-- One event: what a builder whose position is ahead takes, the other one takes; what it refuses
leaves it where it was, but for the length of a token without a place. -/
theorem replay_step {attempt : Attempt} (h : attempt.before.Sound)
    (hahead : attempt.before = replayed.ahead lost) :
    ∃ next lines, Runs replayed (taken [attempt]) next lines ∧
      attempt.reply.builder = next.ahead (lost + streamSize (misplaced [attempt])) := by
  rcases h.attempt_cases with
    ⟨after, lines, htakes, hreply⟩ | ⟨token, hpush, -, hmisplaced, hreply⟩ | ⟨hsome, hplace, hreply⟩
  · rw [hahead] at htakes
    obtain ⟨next, lines', htakes', rfl⟩ := htakes.of_ahead
    refine ⟨next, lines', ?_, ?_⟩
    · simpa [taken, hreply, Reply.taken] using Runs.single htakes'
    · simp [misplaced, Reply.Misplaced, hreply, Reply.taken]
  · refine ⟨replayed, [], ?_, ?_⟩
    · rw [taken_eq_nil hmisplaced.isSome]
      exact .nil replayed
    · rw [misplaced_singleton hmisplaced, hreply, hpush, hahead]
      simp [ahead, Event.size, Nat.add_assoc]
  · refine ⟨replayed, [], ?_, ?_⟩
    · rw [taken_eq_nil hsome]
      exact .nil replayed
    · rw [misplaced_eq_nil hplace, hreply, hahead]
      rfl

/-- Events up to the first one refused. -/
theorem replay_attempts (h : (replayed.ahead lost).Sound) (events : List Event) :
    ∃ next lines, Runs replayed (taken ((replayed.ahead lost).attempts events)) next lines ∧
      ((replayed.ahead lost).run events).builder =
        next.ahead (lost + streamSize (misplaced ((replayed.ahead lost).attempts events))) := by
  induction events generalizing replayed lost with
  | nil => exact ⟨replayed, [], .nil replayed, rfl⟩
  | cons event rest ih =>
    have hnext := h.step event
    obtain ⟨next, lines, hruns, hstep⟩ :=
      replay_step (show (Attempt.mk (replayed.ahead lost) event).before.Sound from h) rfl
    change ((replayed.ahead lost).step event).builder = _ at hstep
    cases herror : ((replayed.ahead lost).step event).error? with
    | some error =>
      refine ⟨next, lines, ?_, ?_⟩
      · simpa only [attempts, herror] using hruns
      · simpa only [run, attempts, herror] using hstep
    | none =>
      rw [hstep] at hnext
      obtain ⟨last, lines', hruns', hrun⟩ := ih hnext
      rw [← hstep] at hruns' hrun
      have hattempts : (replayed.ahead lost).attempts (event :: rest) =
          [⟨replayed.ahead lost, event⟩] ++
            ((replayed.ahead lost).step event).builder.attempts rest := by
        simp only [attempts, herror, List.singleton_append]
      rw [hattempts, taken_append, misplaced_append, streamSize_append]
      refine ⟨last, lines ++ lines', hruns.append hruns', ?_⟩
      rw [← Nat.add_assoc, ← hrun]
      simp only [run, herror]

/-- Events up to the first one refused keep a builder sound. -/
theorem run (h : builder.Sound) (events : List Event) : (builder.run events).builder.Sound := by
  induction events generalizing builder with
  | nil => exact h
  | cons event rest ih =>
    have hstep := h.step event
    unfold Builder.run
    cases herror : (builder.step event).error? with
    | some error => simpa only [herror] using hstep
    | none => simpa only [herror] using ih hstep

/-- Calls one after the other, whether they are refused or not. -/
theorem replay_calls (h : (replayed.ahead lost).Sound) (calls : List Call) :
    ∃ next lines, Runs replayed (taken ((replayed.ahead lost).history calls)) next lines ∧
      (replayed.ahead lost).afterCalls calls =
        next.ahead (lost + streamSize (misplaced ((replayed.ahead lost).history calls))) := by
  induction calls generalizing replayed lost with
  | nil => exact ⟨replayed, [], .nil replayed, rfl⟩
  | cons call rest ih =>
    have hnext := h.run call.events
    obtain ⟨next, lines, hruns, hrun⟩ := h.replay_attempts call.events
    rw [hrun] at hnext
    obtain ⟨last, lines', hruns', hcalls⟩ := ih hnext
    refine ⟨last, lines ++ lines', ?_, ?_⟩
    · rw [history, taken_append, hrun]
      exact hruns.append hruns'
    · rw [history, misplaced_append, streamSize_append, hrun, ← Nat.add_assoc, ← hcalls, ← hrun]
      rfl

/-- Every event is offered to a sound builder. -/
theorem before_of_mem_attempts (h : builder.Sound) (events : List Event) {attempt : Attempt}
    (hmem : attempt ∈ builder.attempts events) : attempt.before.Sound := by
  induction events generalizing builder with
  | nil => cases hmem
  | cons event rest ih =>
    rcases List.mem_cons.1 hmem with rfl | hrest
    · exact h
    · cases herror : (builder.step event).error? with
      | some error =>
        rw [herror] at hrest
        cases hrest
      | none =>
        rw [herror] at hrest
        exact ih (h.step event) hrest

theorem before_of_mem_history (h : builder.Sound) (calls : List Call) {attempt : Attempt}
    (hmem : attempt ∈ builder.history calls) : attempt.before.Sound := by
  induction calls generalizing builder with
  | nil => cases hmem
  | cons call rest ih =>
    rcases List.mem_append.1 hmem with hfirst | hrest
    · exact h.before_of_mem_attempts call.events hfirst
    · exact ih (h.run call.events) hrest

/-- Nothing is left of an event that overflows. -/
theorem builder_eq_of_overflows {attempt : Attempt} (h : attempt.before.Sound)
    (hoverflows : attempt.reply.Overflows) : attempt.reply.builder = attempt.before := by
  obtain ⟨overflow, herror⟩ := hoverflows
  rcases h.attempt_cases with ⟨after, lines, -, hreply⟩ | ⟨-, -, -, hmisplaced, -⟩ | ⟨-, -, hreply⟩
  · rw [hreply] at herror
    cases herror
  · rw [Reply.Misplaced, herror] at hmisplaced
    rcases hmisplaced with hne | hne <;> cases hne
  · exact hreply

end Sound

/-- **Builders forget what they refuse, but for the position.** Whatever is called, and whatever is
refused on the way, a new builder that is offered only the events that were taken takes them all,
and ends with the same open nodes, with the root closed or not as here, and with the same outcome
when it is finished. The position is ahead by the lengths of the tokens that had no place: those
that were offered while no node was open or the root was closed, and that fitted a word. An event
that overflows leaves nothing behind. -/
theorem calls_eq_replay (origin : Nat) (calls : List Call) :
    ∃ replayed lines,
      (new origin).run (taken ((new origin).history calls)) = .taken replayed lines ∧
      ((new origin).afterCalls calls).stack = replayed.stack ∧
      ((new origin).afterCalls calls).rootClosed = replayed.rootClosed ∧
      ((new origin).afterCalls calls).finish = replayed.finish ∧
      ((new origin).afterCalls calls).position =
        replayed.position + streamSize (misplaced ((new origin).history calls)) ∧
      (∀ attempt ∈ (new origin).history calls, attempt.reply.Misplaced →
        ∃ token, attempt.event = .push token ∧ token.byteLen = .ok token.size) ∧
      (∀ attempt ∈ (new origin).history calls, attempt.reply.Misplaced ↔
        ∃ token, attempt.event = .push token ∧
          attempt.before.position + token.size < wordSize ∧
          (attempt.before.rootClosed = true ∨ attempt.before.stack = [])) ∧
      ∀ attempt ∈ (new origin).history calls, attempt.reply.Overflows →
        attempt.reply.builder = attempt.before := by
  have hsound := sound_new origin
  have hahead : (new origin).ahead 0 = new origin := rfl
  obtain ⟨replayed, lines, hruns, hcalls⟩ := Sound.replay_calls (hahead ▸ hsound) calls
  rw [hahead, Nat.zero_add] at hcalls
  rw [hahead] at hruns
  rw [hcalls]
  refine ⟨replayed, lines, hsound.run_eq_of_runs hruns, rfl, rfl, rfl, rfl, ?_, ?_, ?_⟩
  · intro attempt _ hmisplaced
    exact Attempt.exists_byteLen_of_misplaced hmisplaced
  · intro attempt _
    exact Attempt.misplaced_iff
  · intro attempt hmem
    exact (hsound.before_of_mem_history calls hmem).builder_eq_of_overflows

/-- Of two tokens that are pushed before any node is started, the first one is refused and counted,
and the second one is not offered any more. -/
example :
    (new 0).history [.pushAll [.identifier "x", .identifier "yz"], .single (.start .lvalue)] =
      [⟨new 0, .push (.identifier "x")⟩, ⟨(new 0).ahead 1, .start .lvalue⟩] := by
  rfl

end Builder

end LosslessTree
