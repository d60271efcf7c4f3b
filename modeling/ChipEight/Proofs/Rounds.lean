import ChipEight.Proofs.History

/-!
# Sessions driven by hand

A session does nothing that its user could not do operation by operation. A round is a turn about
to begin; it tells which operations the turn consists of, and so does the list of all rounds for
a session. In this way every sequence of calls of the machine, whole sessions included, is a list
of operations.

* `Round`, `Machine.rounds` : a turn about to begin, and those of a session in order;
* `Round.operations` : the operations of a turn;
* `Machine.play_induction` : what turns hand back to each other holds of every session;
* `Machine.run_state` : a session leaves the machine that its operations leave;
* `Call`, `Machine.afterCalls`, `Machine.history` : calls of the machine, and the operations that
  they make;
* `Machine.afterCalls_eq_after` : the machine after the calls is the one after the operations.
-/

namespace ChipEight

/-- A turn about to begin. -/
structure Round where
  /-- The machine. -/
  start : Machine
  /-- What the look at the user's input will find. -/
  poll : Poll
  /-- The ticks that will fall due. -/
  due : Nat

namespace Round

variable (r : Round)

/-- Whether the instruction of the turn fails. -/
def fails : Bool := r.start.step.fault.isSome

/-- The machine when the user's input is looked at: after the instruction. -/
def polled : Machine := r.start.step.state

/-- The machine when the frame is shown: with the user's changes of the keypad. -/
def shown : Machine := r.polled.editKeypad r.poll.edits

/-- The machine when the ticks that fell due are over. -/
def ticked : Machine := r.shown.ticks r.due

/-- The machine at the end of the turn, if its instruction does not fail. -/
def ended : Machine := r.ticked.check.state

/-- The operations of the turn. -/
def operations : List Operation :=
  if r.fails then [.step]
  else .step :: (r.poll.edits.map .key ++ List.replicate r.due .tick ++ [.check])

variable {r}

theorem fault_step (h : r.fails = false) : r.start.step.fault = none := by
  simpa [fails] using h

theorem after_operations_of_fails (h : r.fails = true) :
    r.start.after r.operations = r.polled := by
  rw [operations, if_pos h]
  rfl

theorem after_operations (h : r.fails = false) : r.start.after r.operations = r.ended := by
  rw [operations, if_neg (by simp [h]), Machine.after_cons, Machine.after_append,
    Machine.after_append, Machine.after_keys, Machine.after_ticks]
  rfl

end Round

namespace Machine

/-- The rounds of a session from turn number `k` on. The last one is that of a turn whose
instruction fails or in which the user stops. -/
def rounds (due : Nat → Nat) (m : Machine) (k : Nat) : List Poll → List Round
  | [] => [⟨m, .quit, due k⟩]
  | poll :: polls =>
    let r : Round := ⟨m, poll, due k⟩
    if r.fails || poll.quits then [r] else r :: rounds due r.ended (k + 1) polls

variable {m : Machine} {buzzing : Bool} {r : Round}

theorem turn_of_fails (h : r.fails = true) :
    r.start.turn buzzing r.poll r.due = ⟨⟨r.start.step, []⟩, buzzing⟩ := by
  obtain ⟨f, hf⟩ := Option.isSome_iff_exists.1 h
  rw [turn, hf]

theorem turn_of_not_fails (h : r.fails = false) :
    r.start.turn buzzing r.poll r.due =
      { r.polled.finishTurn buzzing r.poll r.due with
        playback := Playback.after ⟨r.start.step, []⟩
          (r.polled.finishTurn buzzing r.poll r.due).playback } := by
  rw [turn, Round.fault_step h]
  rfl

theorem turn_fails :
    (r.start.turn buzzing r.poll r.due).playback.outcome.fault.isSome = r.fails := by
  cases h : r.fails with
  | true => rw [turn_of_fails h]; exact h
  | false => rw [turn_of_not_fails h]; rfl

theorem turn_state (buzzing : Bool) (h : r.fails = false) :
    (r.start.turn buzzing r.poll r.due).playback.outcome.state = r.ended := by
  rw [turn_of_not_fails h]
  rfl

theorem turn_state_eq_after :
    (r.start.turn buzzing r.poll r.due).playback.outcome.state = r.start.after r.operations := by
  cases h : r.fails with
  | true => rw [turn_of_fails h, Round.after_operations_of_fails h]; rfl
  | false => rw [turn_state buzzing h, Round.after_operations h]

variable {due : Nat → Nat} {k : Nat} {poll : Poll} {polls : List Poll}

theorem rounds_of_last (h : (Round.mk m poll (due k)).fails = true ∨ poll.quits = true) :
    m.rounds due k (poll :: polls) = [⟨m, poll, due k⟩] :=
  if_pos (by simpa using h)

theorem rounds_of_not_last (hf : (Round.mk m poll (due k)).fails = false)
    (hq : poll.quits = false) :
    m.rounds due k (poll :: polls) =
      ⟨m, poll, due k⟩ :: (Round.mk m poll (due k)).ended.rounds due (k + 1) polls :=
  if_neg (by simp [hf, hq])

theorem play_of_last (h : (Round.mk m poll (due k)).fails = true ∨ poll.quits = true) :
    play due m buzzing k (poll :: polls) = (m.turn buzzing poll (due k)).playback := by
  refine if_pos ?_
  rw [turn_fails (r := ⟨m, poll, due k⟩)]
  simpa using h

theorem play_of_not_last (hf : (Round.mk m poll (due k)).fails = false)
    (hq : poll.quits = false) :
    play due m buzzing k (poll :: polls) =
      (m.turn buzzing poll (due k)).playback.after
        (play due (Round.mk m poll (due k)).ended (m.turn buzzing poll (due k)).buzzing (k + 1)
          polls) := by
  rw [← turn_state buzzing hf]
  refine if_neg ?_
  rw [turn_fails (r := ⟨m, poll, due k⟩)]
  simp [hf, hq]

/-- What holds of a last turn, and is handed back by a turn to the one before it, holds of every
session and its rounds. -/
theorem play_induction {P : Machine → Bool → Playback → List Round → Prop}
    (last : ∀ (r : Round) (buzzing : Bool),
      P r.start buzzing (r.start.turn buzzing r.poll r.due).playback [r])
    (next : ∀ (r : Round) (buzzing : Bool) (later : Playback) (rounds : List Round),
      r.fails = false → P r.ended (r.start.turn buzzing r.poll r.due).buzzing later rounds →
      P r.start buzzing ((r.start.turn buzzing r.poll r.due).playback.after later) (r :: rounds)) :
    P m buzzing (play due m buzzing k polls) (m.rounds due k polls) := by
  induction polls generalizing m buzzing k with
  | nil => exact last ⟨m, .quit, due k⟩ buzzing
  | cons poll polls ih =>
    by_cases h : (Round.mk m poll (due k)).fails = true ∨ poll.quits = true
    · rw [play_of_last h, rounds_of_last h]
      exact last ⟨m, poll, due k⟩ buzzing
    · obtain ⟨hf, hq⟩ : (Round.mk m poll (due k)).fails = false ∧ poll.quits = false := by
        simpa using h
      rw [play_of_not_last hf hq, rounds_of_not_last hf hq]
      exact next ⟨m, poll, due k⟩ buzzing _ _ hf ih

theorem play_state :
    (play due m buzzing k polls).outcome.state =
      m.after ((m.rounds due k polls).flatMap Round.operations) := by
  refine play_induction (P := fun m _ played rounds =>
    played.outcome.state = m.after (rounds.flatMap Round.operations))
    (fun r buzzing => ?_) fun r buzzing later rounds hf ih => ?_
  · rw [List.flatMap_singleton]
    exact turn_state_eq_after
  · rw [List.flatMap_cons, after_append, Round.after_operations hf, ← ih]
    rfl

/-- **A session is a list of operations**: it leaves the machine that the operations of its
rounds leave. -/
theorem run_state {config : Config} :
    (m.run config due polls).outcome.state =
      m.after ((m.rounds due 0 polls).flatMap Round.operations) :=
  play_state

end Machine

/-- A call of the machine. -/
inductive Call where
  /-- A single operation. -/
  | single (op : Operation)
  /-- A whole session. -/
  | run (config : Config) (due : Nat → Nat) (polls : List Poll)

namespace Machine

variable (m : Machine)

/-- The machine after a call. -/
def call : Call → Machine
  | .single op => (m.perform op).state
  | .run config due polls => (m.run config due polls).outcome.state

/-- The machine after one call after the other. -/
def afterCalls (calls : List Call) : Machine := calls.foldl call m

/-- The operations that a call makes. -/
def operationsOf : Call → List Operation
  | .single op => [op]
  | .run _ due polls => (m.rounds due 0 polls).flatMap Round.operations

/-- The operations that one call after the other makes. -/
def history : Machine → List Call → List Operation
  | _, [] => []
  | m, c :: calls => m.operationsOf c ++ history (m.call c) calls

variable {m}

theorem call_eq_after {c : Call} : m.call c = m.after (m.operationsOf c) := by
  cases c with
  | single op => rfl
  | run config due polls => exact run_state

/-- The machine after a list of calls is the one after the operations that they make. -/
theorem afterCalls_eq_after {calls : List Call} :
    m.afterCalls calls = m.after (m.history calls) := by
  induction calls generalizing m with
  | nil => rfl
  | cons c calls ih =>
    rw [history, after_append, ← call_eq_after]
    exact ih

end Machine

end ChipEight
