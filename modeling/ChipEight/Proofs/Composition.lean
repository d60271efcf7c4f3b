import ChipEight.Proofs.Buzzer

/-!
# Sessions in two parts

Stopping is heeded at the end of a turn, and whatever a turn hands on to the next one is in the
machine, apart from whether the buzzer is on. So a session may stop after any of its turns and be
taken up from the machine that it has left behind: nothing is lost but the knowledge that the
buzzer is on, and that makes a difference at most until the first look at the input.

* `stopAtEnd` : the same looks at the input, with the wish to stop in the last one;
* `Playback.GoesOn`, `Machine.play_append` : a session goes on where a shorter one stops;
* `Machine.exists_hooks_play` : what it makes of whether the buzzer is on at the start;
* `Machine.Rejoins` : how the contacts of both parts make up those of the whole;
* `Machine.run_append` : sessions compose.
-/

namespace ChipEight

/-- The same looks at the user's input, but in the last one the user wants to stop. -/
def stopAtEnd : List Poll → List Poll
  | [] => []
  | [poll] => [{ poll with quits := true }]
  | poll :: next :: polls => poll :: stopAtEnd (next :: polls)

/-! ### The frames shown -/

/-- The frame that is shown in a contact with the user, if one is. -/
def Hook.frame? : Hook → Option Frame
  | render frame => some frame
  | _ => none

/-- The frames shown, in order. -/
def framesOf (hooks : List Hook) : List Frame := hooks.filterMap Hook.frame?

@[simp] theorem framesOf_append (hooks later : List Hook) :
    framesOf (hooks ++ later) = framesOf hooks ++ framesOf later :=
  List.filterMap_append

@[simp] theorem framesOf_buzz (on : Bool) (hooks : List Hook) :
    framesOf (.buzz on :: hooks) = framesOf hooks := rfl

/-! ### A session that goes on -/

/-- The playback `whole` is that of a session which goes on like `later` where that of `first` has
stopped. -/
structure Playback.GoesOn (whole first later : Playback) : Prop where
  /-- No instruction has failed before. -/
  fault_first : first.outcome.fault = none
  /-- It ends with the same machine. -/
  state_eq : whole.outcome.state = later.outcome.state
  /-- It ends with the same fault, or like the other one with none. -/
  fault_eq : whole.outcome.fault = later.outcome.fault
  /-- The contacts with the user follow each other. -/
  hooks_eq : whole.hooks = first.hooks ++ later.hooks

theorem Playback.GoesOn.after {whole first later : Playback} (h : whole.GoesOn first later)
    (earlier : Playback) : (earlier.after whole).GoesOn (earlier.after first) later where
  fault_first := h.fault_first
  state_eq := h.state_eq
  fault_eq := h.fault_eq
  hooks_eq := by
    change earlier.hooks ++ whole.hooks = earlier.hooks ++ first.hooks ++ later.hooks
    rw [h.hooks_eq, List.append_assoc]

namespace Machine

variable {m : Machine} {buzzing : Bool} {r : Round} {due : Nat → Nat} {k : Nat} {poll : Poll}
  {polls : List Poll}

theorem turn_fault (buzzing : Bool) (r : Round) :
    (r.start.turn buzzing r.poll r.due).playback.outcome.fault = r.start.step.fault := by
  cases h : r.fails with
  | true => rw [turn_of_fails h]
  | false =>
    rw [turn_of_not_fails h, Round.fault_step h]
    rfl

theorem turn_buzzing_eq_isSounding (h : r.fails = false) :
    (r.start.turn buzzing r.poll r.due).buzzing = r.ended.state.timers.isSounding := by
  rw [turn_buzzing h, Bool.eq_iff_iff, Round.getLastD_looks, Timers.isSounding_iff]

/-- The wish to stop shows in nothing but the report of it. -/
theorem turn_stopping (buzzing : Bool) (h : r.fails = false) :
    (r.start.turn buzzing { r.poll with quits := true } r.due).playback.outcome.state = r.ended ∧
      (r.start.turn buzzing { r.poll with quits := true } r.due).playback.outcome.fault = none ∧
      (r.start.turn buzzing { r.poll with quits := true } r.due).playback.hooks =
        (r.start.turn buzzing r.poll r.due).playback.hooks := by
  let stopping : Round := { r with poll := { r.poll with quits := true } }
  have hs : stopping.fails = false := h
  exact ⟨turn_state buzzing hs, (turn_fault buzzing stopping).trans (Round.fault_step hs),
    (turn_hooks hs).trans (turn_hooks h).symm⟩

/-- Either an instruction fails before the user wants to stop, and then the wish to stop makes no
difference; or the session without that wish goes on where the other one stops, with the buzzer as
the sound timer wants it. -/
theorem play_append (due : Nat → Nat) (m : Machine) (buzzing : Bool) (k : Nat)
    (later : List Poll) (hne : polls ≠ []) (hstay : ∀ poll ∈ polls, poll.quits = false) :
    ((∃ r ∈ (m.rounds due k (polls ++ later)).take polls.length, r.fails = true) ∧
      (play due m buzzing k (stopAtEnd polls)).outcome.fault.isSome = true ∧
      play due m buzzing k (polls ++ later) = play due m buzzing k (stopAtEnd polls)) ∨
    ((∀ r ∈ (m.rounds due k (polls ++ later)).take polls.length, r.fails = false) ∧
      (play due m buzzing k (polls ++ later)).GoesOn (play due m buzzing k (stopAtEnd polls))
        (play due (play due m buzzing k (stopAtEnd polls)).outcome.state
          (play due m buzzing k (stopAtEnd polls)).outcome.state.state.timers.isSounding
          (k + polls.length) later)) := by
  induction polls using stopAtEnd.induct generalizing m buzzing k with
  | case1 => exact absurd rfl hne
  | case2 poll =>
    have hq : poll.quits = false := hstay poll List.mem_cons_self
    rw [stopAtEnd, List.singleton_append, List.length_singleton]
    cases hf : (Round.mk m poll (due k)).fails with
    | true =>
      have hf' : (Round.mk m { poll with quits := true } (due k)).fails = true := hf
      rw [rounds_of_last (.inl hf), play_of_last (.inl hf), play_of_last (.inl hf'),
        turn_of_fails hf, turn_of_fails hf']
      exact .inl ⟨⟨_, List.mem_singleton_self _, hf⟩, hf, rfl⟩
    | false =>
      obtain ⟨hend, hfault, hhooks⟩ := turn_stopping buzzing hf
      have hq' : ({ poll with quits := true } : Poll).quits = true := rfl
      rw [rounds_of_not_last hf hq, List.take_succ_cons, List.take_zero,
        play_of_last (.inr hq'), play_of_not_last hf hq, hend, turn_buzzing_eq_isSounding hf]
      exact .inr ⟨by simpa using hf, hfault, rfl, rfl, congrArg (· ++ _) hhooks.symm⟩
  | case3 poll next polls ih =>
    have hq : poll.quits = false := hstay poll List.mem_cons_self
    have hstay' : ∀ p ∈ next :: polls, p.quits = false :=
      fun p hp => hstay p (List.mem_cons_of_mem poll hp)
    rw [stopAtEnd, List.cons_append]
    cases hf : (Round.mk m poll (due k)).fails with
    | true =>
      rw [rounds_of_last (.inl hf), play_of_last (.inl hf), play_of_last (.inl hf),
        turn_of_fails hf]
      exact .inl ⟨⟨_, List.mem_cons_self, hf⟩, hf, rfl⟩
    | false =>
      rw [rounds_of_not_last hf hq, List.length_cons, List.take_succ_cons,
        play_of_not_last hf hq, play_of_not_last hf hq, ← Nat.add_assoc, Nat.add_right_comm]
      rcases ih (Round.mk m poll (due k)).ended (m.turn buzzing poll (due k)).buzzing (k + 1)
        (List.cons_ne_nil next polls) hstay' with ⟨hfail, hfault, heq⟩ | ⟨hok, hgoes⟩
      · obtain ⟨r, hr, hr_fails⟩ := hfail
        rw [heq]
        exact .inl ⟨⟨r, List.mem_cons_of_mem _ hr, hr_fails⟩, hfault, rfl⟩
      · exact .inr ⟨List.forall_mem_cons.2 ⟨hf, hok⟩, hgoes.after _⟩

/-! ### The buzzer at the start -/

theorem play_fault :
    (play due m buzzing k polls).outcome.fault =
      (m.rounds due k polls).findSome? fun r => r.start.step.fault := by
  refine play_induction (P := fun _ _ played rounds =>
    played.outcome.fault = rounds.findSome? fun r => r.start.step.fault)
    (fun r buzzing => ?_) fun r buzzing later rounds hf ih => ?_
  · rw [List.findSome?_singleton]
    exact turn_fault buzzing r
  · rw [List.findSome?_cons, Round.fault_step hf]
    exact ih

/-- Whether the buzzer is on at the start of a session shows only before the first look at the
input. -/
theorem exists_hooks_play (due : Nat → Nat) (m : Machine) (k : Nat) (polls : List Poll) :
    ∃ rest, ∀ buzzing, (play due m buzzing k polls).hooks =
      if m.step.fault.isSome then []
      else (buzzerChange buzzing m.step.state.state.timers.isSounding).map .buzz ++
        .poll :: rest := by
  -- a session without a look at the input is one in which the user stops at the first look
  obtain ⟨poll, polls', heq⟩ : ∃ poll polls', ∀ buzzing,
      play due m buzzing k polls = play due m buzzing k (poll :: polls') := by
    cases polls with
    | nil => exact ⟨.quit, [], fun _ => (play_of_last (.inr rfl)).symm⟩
    | cons poll polls' => exact ⟨poll, polls', fun _ => rfl⟩
  simp only [heq]
  let r : Round := ⟨m, poll, due k⟩
  cases hf : r.fails with
  | true =>
    refine ⟨[], fun buzzing => ?_⟩
    rw [play_of_last (.inl hf), turn_of_fails hf]
    exact (if_pos hf).symm
  | false =>
    have hstep : m.step.fault.isSome = false := hf
    let shown : List Hook := .render r.shown.state.frame :: r.trail.map .buzz
    have hturn (buzzing : Bool) : (m.turn buzzing poll (due k)).playback.hooks =
        (r.lead buzzing).map .buzz ++ .poll :: shown := by
      rw [turn_hooks hf, Round.contacts, List.append_assoc]
      rfl
    simp only [hstep, Bool.false_eq_true, if_false]
    cases hq : poll.quits with
    | true =>
      refine ⟨shown, fun buzzing => ?_⟩
      rw [play_of_last (.inr hq), hturn]
      rfl
    | false =>
      let next := play due r.ended r.ended.state.timers.isSounding (k + 1) polls'
      refine ⟨shown ++ next.hooks, fun buzzing => ?_⟩
      rw [play_of_not_last hf hq, turn_buzzing_eq_isSounding hf, Playback.after, hturn,
        List.append_assoc]
      rfl

theorem play_add {j : Nat} :
    play due m buzzing (k + j) polls = play (fun i => due (i + j)) m buzzing k polls := by
  induction polls generalizing m buzzing k with
  | nil => rfl
  | cons poll polls ih => simp only [play, Nat.add_right_comm k j 1, ih]

/-! ### The two parts of a session -/

variable (m) in
/-- How the contacts with the user in a session that is taken up again from the machine `m` make up
those of one that goes on. The new session begins with the buzzer off. So it may have to switch it
on before its first look at the input, and it need not switch it off there. -/
structure Rejoins (whole first second : List Hook) : Prop where
  /-- If the buzzer is off anyway, there is no difference. -/
  silent : m.state.timers.sound.toNat = 0 → whole = first ++ second
  /-- Nor is there one if the next instruction fails. -/
  failing : m.step.fault.isSome = true → whole = first ++ second
  /-- If the sound timer is still above zero after that instruction, the buzzer is switched on once
  more. -/
  sounding : 0 < m.state.timers.sound.toNat → m.step.fault = none →
    0 < m.step.state.state.timers.sound.toNat →
    ∃ rest, second = .buzz true :: .poll :: rest ∧ whole = first ++ .poll :: rest
  /-- If that instruction sets it to zero, the buzzer is not switched off. -/
  silenced : 0 < m.state.timers.sound.toNat → m.step.fault = none →
    m.step.state.state.timers.sound.toNat = 0 →
    ∃ rest, second = .poll :: rest ∧ whole = first ++ .buzz false :: .poll :: rest

theorem Rejoins.framesOf_eq {whole first second : List Hook} (h : m.Rejoins whole first second) :
    framesOf whole = framesOf first ++ framesOf second := by
  rcases Nat.eq_zero_or_pos m.state.timers.sound.toNat with hs | hs
  · rw [h.silent hs, framesOf_append]
  · cases hf : m.step.fault with
    | some f => rw [h.failing (by rw [hf]; rfl), framesOf_append]
    | none =>
      rcases Nat.eq_zero_or_pos m.step.state.state.timers.sound.toNat with hs' | hs'
      · obtain ⟨rest, hsecond, hwhole⟩ := h.silenced hs hf hs'
        rw [hsecond, hwhole, framesOf_append, framesOf_buzz]
      · obtain ⟨rest, hsecond, hwhole⟩ := h.sounding hs hf hs'
        rw [hsecond, hwhole, framesOf_append, framesOf_buzz]

/-- A session that begins with the buzzer off differs in that way from one that begins with it as
the sound timer wants it. -/
theorem rejoins_play (due : Nat → Nat) (m : Machine) (k : Nat) (polls : List Poll)
    (first : List Hook) :
    m.Rejoins (first ++ (play due m m.state.timers.isSounding k polls).hooks) first
      (play due m false k polls).hooks := by
  obtain ⟨rest, hplay⟩ := exists_hooks_play due m k polls
  have hoff {t : Timers} (h : t.sound.toNat = 0) : t.isSounding = false := by
    rw [← Bool.not_eq_true, Timers.isSounding_iff]
    omega
  constructor
  case silent =>
    intro hs
    rw [hoff hs]
  case failing =>
    intro hf
    rw [hplay, hplay, if_pos hf, if_pos hf]
  case sounding =>
    intro hs hf hs'
    rw [hplay, hplay, hf, Timers.isSounding_iff.2 hs, Timers.isSounding_iff.2 hs']
    exact ⟨rest, rfl, rfl⟩
  case silenced =>
    intro hs hf hs'
    rw [hplay, hplay, hf, Timers.isSounding_iff.2 hs, hoff hs']
    exact ⟨rest, rfl, rfl⟩

/-- **Sessions compose.** Let the user want to stop in the last of `polls` and not before, and take
the session up again from the machine left behind. If an instruction fails in the first part, this
is the session that goes on after `polls`. Otherwise that one ends with the same machine and the
same fault, if there is one, as the second part and shows the same frames as both, and its contacts
with the user are those of both, apart from the switching of the buzzer before the first look at
the input in the second part. -/
theorem run_append (config : Config) (due : Nat → Nat) (m : Machine) {polls : List Poll}
    (later : List Poll) (hne : polls ≠ []) (hstay : ∀ poll ∈ polls, poll.quits = false) :
    let whole := m.run config due (polls ++ later)
    let first := m.run config due (stopAtEnd polls)
    let second := first.outcome.state.run config (fun k => due (k + polls.length)) later
    let early := (m.rounds due 0 (polls ++ later)).take polls.length
    ((∃ r ∈ early, r.fails = true) → first.outcome.fault.isSome = true ∧ whole = first) ∧
      ((∀ r ∈ early, r.fails = false) →
        first.outcome.fault = none ∧ whole.outcome.state = second.outcome.state ∧
          whole.outcome.fault = second.outcome.fault ∧
          framesOf whole.hooks = framesOf first.hooks ++ framesOf second.hooks ∧
          first.outcome.state.Rejoins whole.hooks first.hooks second.hooks) := by
  intro whole first second early
  rcases play_append due m false 0 later hne hstay with
    ⟨⟨r, hr, hfail⟩, hfault, heq⟩ | ⟨hok, hgoes⟩
  · have hwhole : whole = first := by simp only [whole, first, run, heq]
    refine ⟨fun _ => ⟨hfault, hwhole⟩, fun hok => ?_⟩
    rw [hok r hr] at hfail
    cases hfail
  · refine ⟨fun ⟨r, hr, hfail⟩ => ?_, fun _ => ?_⟩
    · rw [hok r hr] at hfail
      cases hfail
    · rw [play_add] at hgoes
      have hrejoins : first.outcome.state.Rejoins whole.hooks first.hooks second.hooks := by
        have hhooks : whole.hooks = _ := hgoes.hooks_eq
        rw [hhooks]
        exact rejoins_play _ _ 0 later _
      refine ⟨hgoes.fault_first, hgoes.state_eq.trans ?_, hgoes.fault_eq.trans ?_,
        hrejoins.framesOf_eq, hrejoins⟩
      · exact play_state.trans play_state.symm
      · exact play_fault.trans play_fault.symm

/-- A processor that waits for a key while the buzzer is on: a session that is taken up again after
two turns switches the buzzer on once more. -/
theorem run_append_of_waiting :
    let m : Machine :=
      { state := { State.initial (.ofList []) with mode := .waiting 0, timers := ⟨0, 9⟩ }
        checked := .empty }
    let polls : List Poll := [⟨[], false⟩, ⟨[], false⟩]
    let whole := m.run .standard (fun _ => 1) (polls ++ [])
    let first := m.run .standard (fun _ => 1) (stopAtEnd polls)
    let second := first.outcome.state.run .standard (fun _ => 1) []
    whole.outcome.state = second.outcome.state ∧
      ∃ rest, second.hooks = .buzz true :: .poll :: rest ∧
        whole.hooks = first.hooks ++ .poll :: rest := by
  intro m polls whole first second
  have hok : ∀ r ∈ (m.rounds (fun _ => 1) 0 (polls ++ [])).take polls.length, r.fails = false := by
    decide
  obtain ⟨-, hstate, -, -, hrejoins⟩ :=
    (run_append .standard (fun _ => 1) m [] (by decide) (by decide)).2 hok
  exact ⟨hstate, hrejoins.sounding (by decide) (by decide) (by decide)⟩

end Machine

end ChipEight
