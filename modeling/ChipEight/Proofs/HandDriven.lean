import ChipEight.Proofs.Composition

/-!
# Driving a machine by hand

Who has a machine can do without sessions: step, change the keypad as the user wants it, look at the
frame, tick the timers as often as ticks have fallen due, check a pending key wait, and begin again,
until a step fails or the user wants to stop. Nothing in this loop says that it ends. A relation
tells what it comes to: a machine that is driven for ever comes to nothing.

* `Drive`, `Machine.Driven` : what driving by hand comes to, and when it does;
* `Machine.Driven.unique` : it comes to one thing at most;
* `Machine.Driven.length_frames`, `Machine.Driven.steps_le` : how often it goes round;
* `Machine.driven_play` : the turns of a session are rounds of this loop;
* `Machine.run_eq_driven` : a session comes to what driving by hand comes to.
-/

namespace ChipEight

/-- What driving a machine by hand has come to. -/
structure Drive where
  /-- The machine that it leaves. -/
  machine : Machine
  /-- The fault of the last step, if it failed. -/
  fault : Option Fault
  /-- The frames looked at, in order. -/
  frames : List Frame
  /-- The number of steps that succeeded. -/
  steps : Nat

namespace Drive

/-- The same with one more round before it, in which `frame` was looked at. -/
def after (frame : Frame) (d : Drive) : Drive :=
  { d with frames := frame :: d.frames, steps := d.steps + 1 }

/-- What a session comes to. Each of its looks at the user's input stands for a step. -/
def ofPlayback (p : Playback) : Drive :=
  { machine := p.outcome.state
    fault := p.outcome.fault
    frames := framesOf p.hooks
    steps := p.hooks.count .poll }

end Drive

namespace Machine

/-- Driving a machine by hand from round number `k` on comes to a certain end. In round `k` the user
does what `script k` says, and `due k` ticks fall due. -/
inductive Driven (due : Nat → Nat) (script : Nat → Poll) : Nat → Machine → Drive → Prop
  /-- The step fails, and nothing else is done. -/
  | failed {k : Nat} {m : Machine} {f : Fault} (hf : m.step.fault = some f) :
      Driven due script k m ⟨m.step.state, some f, [], 0⟩
  /-- The user wants to stop, which is heeded at the end of the round. -/
  | stopped {k : Nat} {m shown ended : Machine} (hf : m.step.fault = none)
      (hs : shown = m.step.state.after ((script k).edits.map .key))
      (he : ended = shown.after (List.replicate (due k) .tick ++ [.check]))
      (hq : (script k).quits = true) :
      Driven due script k m ⟨ended, none, [shown.state.frame], 1⟩
  /-- The next round begins. -/
  | goesOn {k : Nat} {m shown ended : Machine} {d : Drive} (hf : m.step.fault = none)
      (hs : shown = m.step.state.after ((script k).edits.map .key))
      (he : ended = shown.after (List.replicate (due k) .tick ++ [.check]))
      (hq : (script k).quits = false) (later : Driven due script (k + 1) ended d) :
      Driven due script k m (d.after shown.state.frame)

variable {due : Nat → Nat} {script : Nat → Poll} {k : Nat} {m : Machine} {d d' : Drive}

namespace Driven

/-- Driving by hand comes to one end at most. -/
theorem unique (h : Driven due script k m d) (h' : Driven due script k m d') : d = d' := by
  induction h generalizing d' with
  | failed hf =>
    cases h' with
    | failed hf' => rw [Option.some.inj (hf.symm.trans hf')]
    | stopped hf' | goesOn hf' => simp [hf] at hf'
  | stopped hf hs he hq =>
    subst hs he
    cases h' with
    | failed hf' => simp [hf] at hf'
    | stopped _ hs' he' => rw [he', hs']
    | goesOn _ _ _ hq' => simp [hq] at hq'
  | goesOn hf hs he hq later ih =>
    subst hs he
    cases h' with
    | failed hf' => simp [hf] at hf'
    | stopped _ _ _ hq' => simp [hq] at hq'
    | goesOn _ hs' he' _ later' =>
      subst hs' he'
      rw [ih later']

/-- In every round whose step succeeds, the frame is looked at once. -/
theorem length_frames (h : Driven due script k m d) : d.frames.length = d.steps := by
  induction h with
  | failed => rfl
  | stopped => rfl
  | goesOn hf hs he hq later ih => exact congrArg (· + 1) ih

/-- There are no more rounds than the user leaves time for. -/
theorem steps_le {n : Nat} (h : Driven due script k m d) (hn : (script (k + n)).quits = true) :
    d.steps ≤ n + 1 := by
  induction h generalizing n with
  | failed => exact Nat.zero_le _
  | stopped => exact Nat.le_add_left 1 n
  | goesOn hf hs he hq later ih =>
    cases n with
    | zero =>
      rw [Nat.add_zero, hq] at hn
      cases hn
    | succ n =>
      rw [← Nat.add_assoc, Nat.add_right_comm] at hn
      exact Nat.succ_le_succ (ih hn)

end Driven

end Machine

/-! ### Turns as rounds of the loop -/

namespace Round

variable {r : Round}

theorem shown_eq_after : r.shown = r.start.step.state.after (r.poll.edits.map .key) :=
  Machine.after_keys.symm

theorem ended_eq_after : r.ended = r.shown.after (List.replicate r.due .tick ++ [.check]) := by
  rw [Machine.after_concat, Machine.after_ticks]
  rfl

theorem framesOf_contacts (lead trail : List Bool) :
    framesOf (r.contacts lead trail) = [r.shown.state.frame] := by
  have hbuzz (switchings : List Bool) : framesOf (switchings.map .buzz) = [] := by
    simp [framesOf, Hook.frame?]
  rw [contacts, framesOf_append, framesOf_append, hbuzz, hbuzz]
  rfl

theorem count_poll_contacts (lead trail : List Bool) :
    (r.contacts lead trail).count .poll = 1 := by
  have hbuzz (switchings : List Bool) : (switchings.map Hook.buzz).count .poll = 0 := by
    simp [List.count_eq_zero]
  rw [contacts, List.count_append, List.count_append, hbuzz, hbuzz]
  rfl

theorem ofPlayback_turn (buzzing : Bool) (h : r.fails = false) :
    Drive.ofPlayback (r.start.turn buzzing r.poll r.due).playback =
      ⟨r.ended, none, [r.shown.state.frame], 1⟩ := by
  rw [Drive.ofPlayback, Machine.turn_state buzzing h, Machine.turn_fault, fault_step h,
    Machine.turn_hooks h, framesOf_contacts, count_poll_contacts]

theorem ofPlayback_turn_after (buzzing : Bool) (h : r.fails = false) (later : Playback) :
    Drive.ofPlayback ((r.start.turn buzzing r.poll r.due).playback.after later) =
      (Drive.ofPlayback later).after r.shown.state.frame := by
  rw [Playback.after, Machine.turn_hooks h, Drive.ofPlayback, framesOf_append, List.count_append,
    framesOf_contacts, count_poll_contacts, Nat.add_comm]
  rfl

end Round

namespace Machine

variable {buzzing : Bool} {poll : Poll} {polls : List Poll}

/-- The last turn of a session is the last round of the loop. -/
theorem driven_turn (hs : script k = poll)
    (h : (Round.mk m poll (due k)).fails = true ∨ poll.quits = true) :
    Driven due script k m (.ofPlayback (m.turn buzzing poll (due k)).playback) := by
  subst hs
  let r : Round := ⟨m, script k, due k⟩
  cases hf : r.fails with
  | true =>
    obtain ⟨f, hfault⟩ := Option.isSome_iff_exists.1 hf
    rw [turn_of_fails hf, Drive.ofPlayback, hfault]
    exact .failed hfault
  | false =>
    have hq : (script k).quits = true := h.resolve_left (by rw [hf]; decide)
    rw [r.ofPlayback_turn buzzing hf]
    exact .stopped (Round.fault_step hf) r.shown_eq_after r.ended_eq_after hq

/-- The turns of a session are rounds of the loop, with a script that goes on with the wish to
stop. -/
theorem driven_play (hs : ∀ i, script (k + i) = polls.getD i .quit) :
    Driven due script k m (.ofPlayback (play due m buzzing k polls)) := by
  induction polls generalizing m buzzing k with
  | nil => exact driven_turn (hs 0) (.inr rfl)
  | cons poll polls ih =>
    by_cases h : (Round.mk m poll (due k)).fails = true ∨ poll.quits = true
    · rw [play_of_last h]
      exact driven_turn (hs 0) h
    · obtain ⟨hf, hq⟩ : (Round.mk m poll (due k)).fails = false ∧ poll.quits = false := by
        simpa using h
      have hpoll : script k = poll := hs 0
      have hlater (i : Nat) : script (k + 1 + i) = polls.getD i .quit := by
        rw [Nat.add_assoc, Nat.add_comm 1 i]
        exact hs (i + 1)
      let r : Round := ⟨m, script k, due k⟩
      subst hpoll
      rw [play_of_not_last hf hq, r.ofPlayback_turn_after buzzing hf]
      exact .goesOn (Round.fault_step hf) r.shown_eq_after r.ended_eq_after hq (ih hlater)

/-- **A session can be driven by hand.** Driving the machine by hand with the same script, followed
by the wish to stop, comes to an end, and to one only: it leaves the machine that the session
leaves, ends with the same fault, if there is one, and shows the same frames. The session looks at
the user's input, and shows a frame, as often as a step succeeds, which is at most once for every
look of the script and once more. -/
theorem run_eq_driven (config : Config) (due : Nat → Nat) (m : Machine) (polls : List Poll) :
    let session := m.run config due polls
    ∃ d, (∀ d', Driven due (fun k => polls.getD k .quit) 0 m d' ↔ d' = d) ∧
      d.machine = session.outcome.state ∧ d.fault = session.outcome.fault ∧
      d.frames = framesOf session.hooks ∧
      session.hooks.count .poll = d.steps ∧ (framesOf session.hooks).length = d.steps ∧
      d.steps ≤ polls.length + 1 := by
  intro session
  have hd : Driven due (fun k => polls.getD k .quit) 0 m (.ofPlayback session) :=
    driven_play fun i => by rw [Nat.zero_add]
  have hquits : (polls.getD (0 + polls.length) .quit).quits = true := by
    rw [Nat.zero_add, List.getD_eq_getElem?_getD, List.getElem?_eq_none (Nat.le_refl _)]
    rfl
  refine ⟨.ofPlayback session, fun d' => ⟨fun h => h.unique hd, ?_⟩, rfl, rfl, rfl, rfl, ?_, ?_⟩
  · rintro rfl
    exact hd
  · exact hd.length_frames
  · exact hd.steps_le hquits

end Machine

end ChipEight
