import ChipEight.Proofs.Effects
import ChipEight.Proofs.Rounds
import Mathlib.Data.List.Chain

/-!
# The buzzer in a session

In a session the buzzer is looked at when the instruction of a turn is over and when a tick stops
it, and it is switched when what it should do has changed. So what a session does to the buzzer is
the list of these looks without repetitions, and the last switching tells whether the sound timer
is above zero at every contact with the user.

* `buzzes`, `lastBuzz` : the switchings among contacts with the user;
* `Round.looks`, `Round.lead`, `Round.trail` : the looks of a turn, and its switchings;
* `Round.Buzzes`, `BuzzerProtocol` : what is promised of one turn, and of one turn after the other;
* `Round.buzzes_turn`, `buzzerProtocol_contactsOf` : every turn keeps its promise, so all of them
  do;
* `Machine.buzzer_protocol` : the promise holds for every session.
-/

namespace ChipEight

/-! ### Switching without repetitions -/

theorem isChain_buzzerChanges (buzzing : Bool) (looks : List Bool) :
    List.IsChain (· ≠ ·) (buzzing :: buzzerChanges buzzing looks) := by
  induction looks generalizing buzzing with
  | nil => exact List.isChain_singleton buzzing
  | cons sounding looks ih =>
    rw [buzzerChanges, buzzerChange]
    by_cases h : sounding = buzzing
    · rw [if_pos h, List.nil_append, h]
      exact ih buzzing
    · rw [if_neg h, List.singleton_append]
      exact List.isChain_cons_cons.2 ⟨Ne.symm h, ih sounding⟩

theorem getLastD_buzzerChanges (buzzing : Bool) (looks : List Bool) :
    (buzzerChanges buzzing looks).getLastD buzzing = looks.getLastD buzzing := by
  induction looks generalizing buzzing with
  | nil => rfl
  | cons sounding looks ih =>
    rw [buzzerChanges, buzzerChange, List.getLastD_cons]
    by_cases h : sounding = buzzing
    · rw [if_pos h, List.nil_append, h]
      exact ih buzzing
    · rw [if_neg h, List.singleton_append, List.getLastD_cons]
      exact ih sounding

theorem buzzerChanges_append (buzzing : Bool) (looks later : List Bool) :
    buzzerChanges buzzing (looks ++ later) =
      buzzerChanges buzzing looks ++ buzzerChanges (looks.getLastD buzzing) later := by
  induction looks generalizing buzzing with
  | nil => rfl
  | cons sounding looks ih =>
    rw [List.cons_append, buzzerChanges, buzzerChanges, ih, List.append_assoc, List.getLastD_cons]

/-! ### Contacts with the user -/

/-- What a contact with the user does to the buzzer, if it does something. -/
def Hook.buzz? : Hook → Option Bool
  | buzz on => some on
  | _ => none

/-- What a report tells of the buzzer, if it does. -/
def Event.buzzer? : Event → Option Bool
  | buzzer on => some on
  | _ => none

/-- What the contacts with the user do to the buzzer, in order. -/
def buzzes (hooks : List Hook) : List Bool := hooks.filterMap Hook.buzz?

/-- Whether the buzzer has been left on; it is off at the start. -/
def lastBuzz (hooks : List Hook) : Bool := (buzzes hooks).getLastD false

@[simp] theorem buzzes_append (hooks later : List Hook) :
    buzzes (hooks ++ later) = buzzes hooks ++ buzzes later :=
  List.filterMap_append

@[simp] theorem buzzes_map_buzz (switchings : List Bool) :
    buzzes (switchings.map .buzz) = switchings := by
  rw [buzzes, List.filterMap_map]
  exact List.filterMap_some

namespace Round

variable (r : Round)

/-- The looks at the buzzer in a turn: whether the sound timer is above zero after the instruction,
and silence at each tick that stops it. -/
def looks : List Bool :=
  r.polled.state.timers.isSounding ::
    ((r.shown.state.timers.buzzers r.due).filter (· == .stopped)).map fun _ => false

/-- The switchings before the look at the input, if the buzzer is on or off when the turn begins. -/
def lead (buzzing : Bool) : List Bool := buzzerChange buzzing r.polled.state.timers.isSounding

/-- The switchings after the frame is shown. -/
def trail : List Bool := buzzerChanges r.polled.state.timers.isSounding r.looks.tail

/-- The contacts of a turn with the user, with the switchings of the buzzer before the look at the
input and after the frame is shown. -/
def contacts (lead trail : List Bool) : List Hook :=
  lead.map .buzz ++ [.poll, .render r.shown.state.frame] ++ trail.map .buzz

/-- What a turn whose instruction succeeds promises of its switchings of the buzzer when the
contacts `before` have gone before. -/
structure Buzzes (before : List Hook) (lead trail : List Bool) : Prop where
  /-- There is at most one switching before the look at the input. -/
  lead_length : lead.length ≤ 1
  /-- At the look at the input, the buzzer is on if the sound timer is above zero. -/
  at_poll : lastBuzz (before ++ lead.map .buzz) = true ↔ 0 < r.polled.state.timers.sound.toNat
  /-- So it is when the frame is shown. -/
  at_render : lastBuzz (before ++ (lead.map .buzz ++ [.poll])) = true ↔
    0 < r.shown.state.timers.sound.toNat
  /-- The buzzer is switched off at the end if the ticks have stopped the sound timer. -/
  trail_eq : trail =
    if 0 < r.shown.state.timers.sound.toNat ∧ r.ticked.state.timers.sound.toNat = 0 then [false]
    else []
  /-- At the end, the buzzer is on if the sound timer is above zero. -/
  at_end : lastBuzz (before ++ r.contacts lead trail) = true ↔
    0 < r.ended.state.timers.sound.toNat

end Round

/-- The contacts with the user in turns one after the other, when the contacts `before` have gone
before. -/
inductive BuzzerProtocol : List Hook → List Round → List Hook → Prop
  /-- Without a turn there is no contact. -/
  | done {before : List Hook} : BuzzerProtocol before [] []
  /-- There is none in a turn whose instruction fails. -/
  | failed {before hooks : List Hook} {r : Round} {rounds : List Round} (h : r.fails = true)
      (later : BuzzerProtocol before rounds hooks) : BuzzerProtocol before (r :: rounds) hooks
  /-- In any other turn, the input is looked at and the frame is shown once each. -/
  | completed {before hooks : List Hook} {r : Round} {rounds : List Round} {lead trail : List Bool}
      (h : r.fails = false) (buzzes : r.Buzzes before lead trail)
      (later : BuzzerProtocol (before ++ r.contacts lead trail) rounds hooks) :
      BuzzerProtocol before (r :: rounds) (r.contacts lead trail ++ hooks)

theorem lastBuzz_append (hooks later : List Hook) :
    lastBuzz (hooks ++ later) = (buzzes later).getLastD (lastBuzz hooks) := by
  rw [lastBuzz, buzzes_append, lastBuzz]
  simp [List.getLast?_append, Option.getD_or]

namespace Round

variable {r : Round}

theorem buzzes_contacts (lead trail : List Bool) :
    buzzes (r.contacts lead trail) = lead ++ trail := by
  rw [contacts, buzzes_append, buzzes_append, buzzes_map_buzz, buzzes_map_buzz]
  exact congrArg (· ++ trail) (List.append_nil lead)

theorem ended_timers : r.ended.state.timers = r.ticked.state.timers := by
  obtain ⟨registers, mode, h⟩ := Machine.check_eq_update (m := r.ticked)
  rw [ended, h]

theorem toNat_sound_ticked :
    r.ticked.state.timers.sound.toNat = r.shown.state.timers.sound.toNat - r.due :=
  Timers.toNat_sound_after r.due r.shown.state.timers

theorem getLastD_looks (buzzing : Bool) :
    r.looks.getLastD buzzing = true ↔ 0 < r.ended.state.timers.sound.toNat := by
  rw [looks, List.getLastD_cons, Timers.stops_eq, ended_timers, toNat_sound_ticked]
  have hs : r.shown.state.timers = r.polled.state.timers := rfl
  rw [hs]
  split
  · refine iff_of_false (by simp) (by omega)
  · refine Timers.isSounding_iff.trans (by omega)

theorem getLastD_lead (buzzing : Bool) :
    (r.lead buzzing).getLastD buzzing = true ↔ 0 < r.polled.state.timers.sound.toNat := by
  have h : r.lead buzzing = buzzerChanges buzzing [r.polled.state.timers.isSounding] :=
    (List.append_nil _).symm
  rw [h, getLastD_buzzerChanges]
  exact Timers.isSounding_iff

theorem lead_append_trail (buzzing : Bool) :
    r.lead buzzing ++ r.trail = buzzerChanges buzzing r.looks := rfl

theorem trail_eq :
    r.trail =
      if 0 < r.shown.state.timers.sound.toNat ∧ r.ticked.state.timers.sound.toNat = 0 then [false]
      else [] := by
  have hs : r.shown.state.timers = r.polled.state.timers := rfl
  rw [trail, looks, List.tail_cons, Timers.stops_eq, toNat_sound_ticked]
  by_cases h : 0 < r.shown.state.timers.sound.toNat ∧ r.shown.state.timers.sound.toNat ≤ r.due
  -- if a tick stops the buzzer, it was on, so that it has to be switched
  · have hon : r.polled.state.timers.isSounding = true := Timers.isSounding_iff.2 (hs ▸ h.1)
    rw [if_pos h, if_pos (by omega), hon]
    rfl
  · rw [if_neg h, if_neg (by omega)]
    rfl

/-- A turn leaves the buzzer as its last look has found it. -/
theorem lastBuzz_contacts {before : List Hook} :
    lastBuzz (before ++ r.contacts (r.lead (lastBuzz before)) r.trail) =
      r.looks.getLastD (lastBuzz before) := by
  rw [lastBuzz_append, buzzes_contacts, lead_append_trail, getLastD_buzzerChanges]

/-- A turn keeps its promise if it begins with the buzzer as the last switching has left it. -/
theorem buzzes_turn {before : List Hook} (r : Round) :
    r.Buzzes before (r.lead (lastBuzz before)) r.trail where
  lead_length := by
    rw [lead, buzzerChange]
    split
    · exact Nat.zero_le 1
    · exact Nat.le_refl 1
  at_poll := by rw [lastBuzz_append, buzzes_map_buzz, getLastD_lead]
  at_render := by
    have h : r.lead (lastBuzz before) ++ buzzes [.poll] = r.lead (lastBuzz before) :=
      List.append_nil _
    rw [lastBuzz_append, buzzes_append, buzzes_map_buzz, h]
    exact getLastD_lead _
  trail_eq := trail_eq
  at_end := by rw [lastBuzz_contacts, getLastD_looks]

end Round

/-- The contacts with the user in turns one after the other. -/
def contactsOf : Bool → List Round → List Hook
  | _, [] => []
  | buzzing, r :: rounds =>
    if r.fails then contactsOf buzzing rounds
    else r.contacts (r.lead buzzing) r.trail ++ contactsOf (r.looks.getLastD buzzing) rounds

theorem contactsOf_of_fails {buzzing : Bool} {r : Round} {rounds : List Round}
    (h : r.fails = true) : contactsOf buzzing (r :: rounds) = contactsOf buzzing rounds :=
  if_pos h

theorem contactsOf_of_not_fails {buzzing : Bool} {r : Round} {rounds : List Round}
    (h : r.fails = false) :
    contactsOf buzzing (r :: rounds) =
      r.contacts (r.lead buzzing) r.trail ++ contactsOf (r.looks.getLastD buzzing) rounds :=
  if_neg (by simp [h])

theorem buzzerProtocol_contactsOf {before : List Hook} {rounds : List Round} :
    BuzzerProtocol before rounds (contactsOf (lastBuzz before) rounds) := by
  induction rounds generalizing before with
  | nil => exact .done
  | cons r rounds ih =>
    cases h : r.fails with
    | true =>
      rw [contactsOf_of_fails h]
      exact .failed h ih
    | false =>
      rw [contactsOf_of_not_fails h, ← Round.lastBuzz_contacts]
      exact .completed h r.buzzes_turn ih

/-- The switchings are the looks without repetitions. -/
theorem buzzes_contactsOf {buzzing : Bool} {rounds : List Round} :
    buzzes (contactsOf buzzing rounds) =
      buzzerChanges buzzing ((rounds.filter (!·.fails)).flatMap Round.looks) := by
  induction rounds generalizing buzzing with
  | nil => rfl
  | cons r rounds ih =>
    cases h : r.fails with
    | true => rw [contactsOf_of_fails h, ih, List.filter_cons_of_neg (by simp [h])]
    | false =>
      rw [contactsOf_of_not_fails h, buzzes_append, Round.buzzes_contacts, ih,
        List.filter_cons_of_pos (by simp [h]), List.flatMap_cons, buzzerChanges_append,
        Round.lead_append_trail]

/-! ### The log -/

namespace Event

/-- Whether a report is one of the two texts on the buzzer. -/
def tellsOfBuzzer (e : Event) : Bool :=
  e.level = .debug && (e.message = "buzzer on" || e.message = "buzzer off")

/-- A report whose text begins with another character than `b` does not tell of the buzzer. -/
theorem tellsOfBuzzer_of_message {e : Event} {a t : String} {c : Char} (h : e.message = a ++ t)
    (hc : a.toList.head? = some c) (hb : c ≠ 'b') : e.tellsOfBuzzer = false := by
  have hh : e.message.toList.head? = some c := by
    rw [h, String.toList_append, List.head?_append, hc]
    rfl
  have hne {b : String} (h' : b.toList.head? = some 'b') : e.message ≠ b := by
    rintro rfl
    rw [hh] at h'
    exact hb (Option.some.inj h')
  have h_on : e.message ≠ "buzzer on" := hne rfl
  have h_off : e.message ≠ "buzzer off" := hne rfl
  simp [tellsOfBuzzer, h_on, h_off]

/-- No other report has one of these texts. -/
theorem tellsOfBuzzer_eq (e : Event) : e.tellsOfBuzzer = e.buzzer?.isSome := by
  cases e with
  | buzzer on => cases on <;> rfl
  | awaitingKey x =>
    have h : (awaitingKey x).message = "waiting for a key press into V" ++ Digit.text x := rfl
    exact tellsOfBuzzer_of_message h rfl (by decide)
  | keyPressed key x =>
    have h : (keyPressed key x).message =
        "key " ++ (Digit.text key ++ (" pressed into V" ++ Digit.text x)) := by
      show "key " ++ Digit.text key ++ " pressed into V" ++ Digit.text x = _
      rw [String.append_assoc, String.append_assoc]
    exact tellsOfBuzzer_of_message h rfl (by decide)
  | droppedStore | loadedRom | starting | quitRequested | executing => rfl

theorem messages_of_buzzer (log : List Event) :
    (log.filter tellsOfBuzzer).map message =
      (log.filterMap buzzer?).map fun on => if on then "buzzer on" else "buzzer off" := by
  induction log with
  | nil => rfl
  | cons e log ih =>
    rw [List.filter_cons, List.filterMap_cons, tellsOfBuzzer_eq]
    cases e with
    | buzzer on => exact congrArg (_ :: ·) ih
    | _ => exact ih

end Event

theorem Instruction.execute_log {i : Instruction} (op : Word) (s : State) :
    (i.execute op s).log.filterMap Event.buzzer? = [] := by
  refine List.filterMap_eq_nil_iff.2 fun e he => ?_
  rcases mem_execute_log op s he with ⟨v, a, site, rfl⟩ | ⟨x, rfl⟩
  · rfl
  · rfl

namespace Machine

variable {m : Machine} {buzzing : Bool} {r : Round} {due : Nat → Nat} {k : Nat}
  {polls : List Poll}

theorem turn_hooks (h : r.fails = false) :
    (r.start.turn buzzing r.poll r.due).playback.hooks = r.contacts (r.lead buzzing) r.trail := by
  rw [turn_of_not_fails h]
  rfl

theorem turn_buzzing (h : r.fails = false) :
    (r.start.turn buzzing r.poll r.due).buzzing = r.looks.getLastD buzzing := by
  rw [turn_of_not_fails h]
  change (r.polled.state.timers.isSounding &&
    ((r.shown.state.timers.buzzers r.due).filter (· == .stopped)).isEmpty) = _
  rw [Round.looks, List.getLastD_cons, Timers.stops_eq]
  split
  · exact Bool.and_false _
  · exact Bool.and_true _

theorem turn_contacts :
    (r.start.turn buzzing r.poll r.due).playback.hooks = contactsOf buzzing [r] := by
  cases h : r.fails with
  | true =>
    rw [turn_of_fails h, contactsOf_of_fails h]
    rfl
  | false =>
    rw [turn_hooks h, contactsOf_of_not_fails h]
    exact (List.append_nil _).symm

theorem play_contacts :
    (play due m buzzing k polls).hooks = contactsOf buzzing (m.rounds due k polls) := by
  refine play_induction (P := fun _ buzzing played rounds =>
    played.hooks = contactsOf buzzing rounds)
    (fun r buzzing => turn_contacts) fun r buzzing later rounds hf ih => ?_
  rw [contactsOf_of_not_fails hf, ← turn_buzzing hf, ← turn_hooks hf, ← ih]
  rfl

theorem log_step : m.step.log.filterMap Event.buzzer? = [] := by
  rw [step, Outcome.log_map]
  cases h : m.state.mode with
  | running =>
    rw [State.step_of_running h, Outcome.log_after, List.filterMap_append]
    exact Instruction.execute_log m.state.fetch m.state.advance
  | waiting x => rw [State.step_of_waiting h]; rfl

theorem log_check : m.check.log.filterMap Event.buzzer? = [] := by
  rw [check]
  split
  · rfl
  · rfl

theorem turn_log :
    (r.start.turn buzzing r.poll r.due).playback.outcome.log.filterMap Event.buzzer? =
      buzzes (r.start.turn buzzing r.poll r.due).playback.hooks := by
  cases h : r.fails with
  | true =>
    rw [turn_of_fails h]
    exact log_step
  | false =>
    have h_farewell : (if r.poll.quits then [Event.quitRequested] else []).filterMap
        Event.buzzer? = [] := by
      split
      · rfl
      · rfl
    have h_map (switchings : List Bool) :
        (switchings.map Event.buzzer).filterMap Event.buzzer? = switchings := by
      rw [List.filterMap_map]
      exact List.filterMap_some
    -- the step, the check and the farewell say nothing of the buzzer
    rw [turn_hooks h, Round.buzzes_contacts, turn_of_not_fails h]
    change (r.start.step.log ++ ((r.lead buzzing).map Event.buzzer ++ r.trail.map Event.buzzer ++
      (r.ticked.check.log ++ if r.poll.quits then [Event.quitRequested] else []))).filterMap _ = _
    rw [List.filterMap_append, List.filterMap_append, List.filterMap_append,
      List.filterMap_append, log_step, log_check, h_farewell, h_map, h_map]
    simp

theorem play_log :
    (play due m buzzing k polls).outcome.log.filterMap Event.buzzer? =
      buzzes (play due m buzzing k polls).hooks := by
  refine play_induction (P := fun _ _ played _ =>
    played.outcome.log.filterMap Event.buzzer? = buzzes played.hooks)
    (fun r buzzing => turn_log) fun r buzzing later rounds hf ih => ?_
  rw [Playback.after, Outcome.log_after, List.filterMap_append, turn_log, ih, buzzes_append]

/-- **The buzzer follows the sound timer.** In every session, whatever its machine, the contacts
with the user are as promised round by round, the switchings of the buzzer alternate and begin
with switching it on, and the log tells of them in the same order. What the user's side does with
its contacts has no influence on the log. -/
theorem buzzer_protocol (m : Machine) (config : Config) (due : Nat → Nat) (polls : List Poll) :
    let session := m.run config due polls
    session.outcome.state = m.after ((m.rounds due 0 polls).flatMap Round.operations) ∧
      BuzzerProtocol [] (m.rounds due 0 polls) session.hooks ∧
      List.IsChain (· ≠ ·) (false :: buzzes session.hooks) ∧
      (session.outcome.log.filter Event.tellsOfBuzzer).map Event.message =
        (buzzes session.hooks).map fun on => if on then "buzzer on" else "buzzer off" := by
  intro session
  have h_hooks : session.hooks = contactsOf false (m.rounds due 0 polls) := play_contacts
  refine ⟨run_state, ?_, ?_, ?_⟩
  · rw [h_hooks]
    exact buzzerProtocol_contactsOf
  · rw [h_hooks, buzzes_contactsOf]
    exact isChain_buzzerChanges _ _
  · rw [Event.messages_of_buzzer]
    exact congrArg _ play_log

end Machine

end ChipEight
