import ChipEight.Proofs.Effects
import ChipEight.Proofs.Rounds

/-!
# What can be observed

Not all of a state can be observed. The index register is a word, but it is only ever used as an
address, so its upper four bits do not show. The slots of the call stack that are not in use hold
what was called before, and they are written again before they are read. Machines that differ in
nothing else give the same answers to all calls; only the trace of the executed instructions,
which shows the whole index register, can tell them apart.

* `State.Alike`, `Machine.Alike` : equal up to these hidden parts;
* `State.withHidden` : the hidden parts exchanged;
* `Instruction.execute_withHidden` : an instruction takes no notice of them;
* `Outcome.Agrees`, `Playback.Agrees` : outcomes and sessions that cannot be told apart;
* `Answer`, `Machine.answers` : what the surroundings notice of calls;
* `Machine.answers_of_alike` : machines that are alike stay so and give the same answers.
-/

namespace ChipEight

/-! ### The hidden parts of a state -/

namespace CallStack

variable {a b : CallStack}

theorem depth_eq_of_entries_eq (h : a.entries = b.entries) : a.depth = b.depth := by
  rw [← length_entries, h, length_entries]

theorem push?_of_entries_eq (h : a.entries = b.entries) (w : Word) :
    (a.push? w = none ∧ b.push? w = none) ∨
      ∃ a' b', a.push? w = some a' ∧ b.push? w = some b' ∧ a'.entries = b'.entries := by
  have hd := depth_eq_of_entries_eq h
  cases hp : a.push? w with
  | none => exact .inl ⟨rfl, push?_eq_none_iff.2 (hd.symm.trans (push?_eq_none_iff.1 hp))⟩
  | some a' =>
    have hlen : b.entries.length < stackSize := by
      rw [length_entries, ← hd]
      exact (push?_eq_some hp).1
    obtain ⟨b', hp', hb'⟩ := exists_push? hlen w
    exact .inr ⟨a', b', rfl, hp', by rw [entries_of_push? hp, hb', h]⟩

theorem pop?_of_entries_eq (h : a.entries = b.entries) :
    (a.pop? = none ∧ b.pop? = none) ∨
      ∃ pc a' b', a.pop? = some (pc, a') ∧ b.pop? = some (pc, b') ∧ a'.entries = b'.entries := by
  cases hp : a.pop? with
  | none =>
    have hd := depth_eq_of_entries_eq h
    exact .inl ⟨rfl, pop?_eq_none_iff.2 (hd.symm.trans (pop?_eq_none_iff.1 hp))⟩
  | some p =>
    obtain ⟨b', hp', hb'⟩ := exists_pop? (h.symm.trans (entries_of_pop? hp))
    exact .inr ⟨p.1, p.2, b', rfl, hp', hb'.symm⟩

end CallStack

namespace State

/-- The two states are equal as far as they can be observed. -/
structure Alike (s t : State) : Prop where
  /-- They have the same registers. -/
  registers : s.registers = t.registers
  /-- Their index registers point to the same address. -/
  address : s.index.address = t.index.address
  /-- They are at the same instruction. -/
  pc : s.pc = t.pc
  /-- They have the same calls in progress. -/
  entries : s.stack.entries = t.stack.entries
  /-- They have the same memory. -/
  memory : s.memory = t.memory
  /-- They show the same frame. -/
  frame : s.frame = t.frame
  /-- They have the same timers. -/
  timers : s.timers = t.timers
  /-- They have the same keys down. -/
  keypad : s.keypad = t.keypad
  /-- Both run, or both wait for the same register. -/
  mode : s.mode = t.mode
  /-- They have the same random numbers still to come. -/
  random : s.random = t.random

/-- The state with another index register and another call stack. -/
def withHidden (s : State) (index : Word) (stack : CallStack) : State :=
  { s with index := index, stack := stack }

variable {s t : State} {index : Word} {stack : CallStack}

theorem alike_withHidden (hi : index.address = s.index.address)
    (hs : stack.entries = s.stack.entries) : s.Alike (s.withHidden index stack) where
  registers := rfl
  address := hi.symm
  pc := rfl
  entries := hs.symm
  memory := rfl
  frame := rfl
  timers := rfl
  keypad := rfl
  mode := rfl
  random := rfl

/-- States that are alike differ in the hidden parts only. -/
theorem Alike.exists_withHidden (h : s.Alike t) :
    ∃ index stack, index.address = s.index.address ∧ stack.entries = s.stack.entries ∧
      t = s.withHidden index stack := by
  refine ⟨t.index, t.stack, h.address.symm, h.entries.symm, ?_⟩
  rw [withHidden, h.registers, h.pc, h.memory, h.frame, h.timers, h.keypad, h.mode, h.random]

/-! ### Instructions -/

theorem holds_withHidden (c : Condition) :
    c.holds (s.withHidden index stack) = c.holds s := by
  cases c with
  | _ => rfl

theorem exists_jump_withHidden (target : Word) (hi : index.address = s.index.address)
    (hs : stack.entries = s.stack.entries) :
    ∃ index' stack', index'.address = (s.jump target).state.index.address ∧
      stack'.entries = (s.jump target).state.stack.entries ∧
      (s.withHidden index stack).jump target =
        (s.jump target).map (·.withHidden index' stack') := by
  refine ⟨index, stack, ?_⟩
  cases h : isProgramAddress target with
  | true =>
    rw [jump_of_isProgramAddress h, jump_of_isProgramAddress h]
    exact ⟨hi, hs, rfl⟩
  | false =>
    rw [jump_of_not_isProgramAddress h, jump_of_not_isProgramAddress h]
    exact ⟨hi, hs, rfl⟩

theorem draw_withHidden (x y n : Digit) (hi : index.address = s.index.address) :
    (s.withHidden index stack).draw x y n = (s.draw x y n).withHidden index stack := by
  have hsprite : (s.withHidden index stack).sprite n = s.sprite n :=
    congrArg (s.memory.read · n.toNat) hi
  rw [draw, hsprite]
  rfl

theorem storeAtIndex_withHidden (bytes : List Byte) (hi : index.address = s.index.address) :
    (s.withHidden index stack).storeAtIndex bytes =
      (s.storeAtIndex bytes).map (·.withHidden index stack) := by
  have hcells : Memory.cells (s.withHidden index stack).index.address bytes =
      Memory.cells s.index.address bytes := congrArg (Memory.cells · bytes) hi
  rw [storeAtIndex, hcells]
  rfl

theorem loadRegisters_withHidden (x : Digit) (hi : index.address = s.index.address) :
    (s.withHidden index stack).loadRegisters x =
      (s.loadRegisters x).withHidden index stack := by
  have hindex : (s.withHidden index stack).index.address = s.index.address := hi
  rw [loadRegisters, hindex]
  rfl

end State

namespace Instruction

open State

variable {s : State} {index : Word} {stack : CallStack}

/-- An instruction does the same, whatever the hidden parts are, and leaves only hidden parts
different. -/
theorem execute_withHidden (i : Instruction) (op : Word) (hi : index.address = s.index.address)
    (hs : stack.entries = s.stack.entries) :
    ∃ index' stack', index'.address = (i.execute op s).state.index.address ∧
      stack'.entries = (i.execute op s).state.stack.entries ∧
      i.execute op (s.withHidden index stack) =
        (i.execute op s).map (·.withHidden index' stack') := by
  cases i with
  | ret =>
    rcases CallStack.pop?_of_entries_eq hs.symm with ⟨hp, hp'⟩ | ⟨pc, rest, rest', hp, hp', he⟩
    · rw [execute, execute, pop_of_none hp, pop_of_none (s := s.withHidden index stack) hp']
      exact ⟨index, stack, hi, hs, rfl⟩
    · rw [execute, execute, pop_of_some hp, pop_of_some (s := s.withHidden index stack) hp']
      exact ⟨index, rest', hi, he.symm, rfl⟩
  | call nnn =>
    rcases CallStack.push?_of_entries_eq hs.symm s.pc with ⟨hp, hp'⟩ | ⟨more, more', hp, hp', he⟩
    · rw [execute_call_of_none op hp, execute_call_of_none (s := s.withHidden index stack) op hp']
      exact ⟨index, stack, hi, hs, rfl⟩
    · rw [execute_call_of_some op hp, execute_call_of_some (s := s.withHidden index stack) op hp']
      exact exists_jump_withHidden (s := { s with stack := more }) _ hi he.symm
  | jump nnn => exact exists_jump_withHidden _ hi hs
  | jumpOffset nnn => exact exists_jump_withHidden _ hi hs
  | skip c =>
    refine ⟨index, stack, ?_⟩
    rw [execute, execute, holds_withHidden]
    split
    · exact ⟨hi, hs, rfl⟩
    · exact ⟨hi, hs, rfl⟩
  | arith f x y =>
    refine ⟨index, stack, ?_⟩
    cases f with
    | _ => exact ⟨hi, hs, rfl⟩
  | loadIndex nnn => exact ⟨nnn.setWidth 16, stack, rfl, hs, rfl⟩
  | addIndex x =>
    -- a carry out of the upper bits is lost in the address
    have hsum : (index + (s.registers.get x).setWidth 16).address =
        (s.index + (s.registers.get x).setWidth 16).address := by
      rw [Word.address_add, Word.address_add, hi]
    exact ⟨index + (s.registers.get x).setWidth 16, stack, hsum, hs, rfl⟩
  | pointGlyph x => exact ⟨_, stack, rfl, hs, rfl⟩
  | draw x y n =>
    exact ⟨index, stack, hi, hs, congrArg Outcome.done (draw_withHidden x y n hi)⟩
  | storeDecimal x =>
    exact ⟨index, stack, hi, hs, storeAtIndex_withHidden _ hi⟩
  | storeRegisters x =>
    exact ⟨index, stack, hi, hs, storeAtIndex_withHidden _ hi⟩
  | loadRegisters x =>
    obtain ⟨registers, hload⟩ := s.loadRegisters_eq_update x
    have hload' : (s.withHidden index stack).loadRegisters x =
        (s.loadRegisters x).withHidden index stack := loadRegisters_withHidden x hi
    rw [execute, execute, hload', hload]
    exact ⟨index, stack, hi, hs, rfl⟩
  | _ => exact ⟨index, stack, hi, hs, rfl⟩

end Instruction

/-! ### Outcomes that agree -/

/-- The reports that a reader of level `debug` sees: all but the trace. -/
def visibleReports (log : List Event) : List Event :=
  log.filter fun e => Level.debug.admits e.level

@[simp] theorem visibleReports_append (log later : List Event) :
    visibleReports (log ++ later) = visibleReports log ++ visibleReports later :=
  List.filter_append log later

/-- The two outcomes have the same fault and the same visible reports, and the states after them
are related by `R`. -/
structure Outcome.Agrees {σ : Type} (R : σ → σ → Prop) (o o' : Outcome σ) : Prop where
  /-- The states are related. -/
  state : R o.state o'.state
  /-- Both succeed, or both fail in the same way. -/
  fault : o.fault = o'.fault
  /-- The same is reported. -/
  reports : visibleReports o.log = visibleReports o'.log

namespace Outcome.Agrees

variable {σ τ : Type} {R : σ → σ → Prop} {o o' : Outcome σ}

theorem after {log log' : List Event} (h : o.Agrees R o')
    (hlog : visibleReports log = visibleReports log') : (o.after log).Agrees R (o'.after log') where
  state := h.state
  fault := h.fault
  reports := by rw [log_after, log_after, visibleReports_append, visibleReports_append, hlog,
    h.reports]

theorem map {S : τ → τ → Prop} {f g : σ → τ} (h : o.Agrees R o')
    (hfg : R o.state o'.state → S (f o.state) (g o'.state)) : (o.map f).Agrees S (o'.map g) where
  state := hfg h.state
  fault := h.fault
  reports := h.reports

end Outcome.Agrees

namespace State

variable {s t : State}

/-- The instructions of states that are alike cannot be told apart. -/
theorem Alike.step (h : s.Alike t) : s.step.Agrees Alike t.step := by
  obtain ⟨index, stack, hi, hs, rfl⟩ := h.exists_withHidden
  cases hm : s.mode with
  | waiting x =>
    rw [step_of_waiting hm, step_of_waiting (s := s.withHidden index stack) hm]
    exact ⟨alike_withHidden hi hs, rfl, rfl⟩
  | running =>
    obtain ⟨index', stack', hi', hs', hexec⟩ :=
      (Instruction.decode s.fetch).execute_withHidden (s := s.advance) s.fetch hi hs
    have hperform : (s.withHidden index stack).perform s.fetch s.fetch =
        (s.perform s.fetch s.fetch).map (·.withHidden index' stack') := hexec
    -- the traces may differ, but they are not visible
    rw [step_of_running hm, step_of_running (s := s.withHidden index stack) hm]
    refine Outcome.Agrees.after ?_ rfl
    exact hperform ▸ ⟨alike_withHidden hi' hs', rfl, rfl⟩

end State

/-! ### Machines -/

namespace Machine

/-- The two machines are equal as far as they can be observed. -/
structure Alike (m n : Machine) : Prop where
  /-- Their states are. -/
  state : m.state.Alike n.state
  /-- The last check has found the same keys down. -/
  checked : m.checked = n.checked

/-- The machine with another index register and another call stack. -/
def withHidden (m : Machine) (index : Word) (stack : CallStack) : Machine :=
  { m with state := m.state.withHidden index stack }

variable {m n : Machine} {index : Word} {stack : CallStack}

theorem Alike.exists_withHidden (h : m.Alike n) :
    ∃ index stack, index.address = m.state.index.address ∧
      stack.entries = m.state.stack.entries ∧ n = m.withHidden index stack := by
  obtain ⟨index, stack, hi, hs, heq⟩ := h.state.exists_withHidden
  refine ⟨index, stack, hi, hs, ?_⟩
  rw [withHidden, ← heq, h.checked]

theorem load_withHidden (rom : List Byte) :
    (m.withHidden index stack).load rom = (m.load rom).map (·.withHidden index stack) := by
  rw [load, load]
  split
  · rfl
  · rfl

theorem check_withHidden :
    (m.withHidden index stack).check = m.check.map (·.withHidden index stack) := by
  have hmode : (m.withHidden index stack).state.mode = m.state.mode := rfl
  have hfresh : (m.withHidden index stack).state.keypad.freshKey?
      (m.withHidden index stack).checked = m.state.keypad.freshKey? m.checked := rfl
  rw [check, check, hmode, hfresh]
  split
  · rfl
  · rfl

/-- Only an instruction looks at the hidden parts at all. -/
theorem perform_withHidden {op : Operation} (hop : op ≠ .step) :
    (m.withHidden index stack).perform op = (m.perform op).map (·.withHidden index stack) := by
  cases op with
  | load rom => exact load_withHidden rom
  | loadFrom reads =>
    rw [perform, perform, loadFrom, loadFrom]
    split
    · exact load_withHidden _
    · rfl
  | step => exact absurd rfl hop
  | key edit => rfl
  | check => exact check_withHidden
  | tick => rfl

theorem Alike.perform (h : m.Alike n) (op : Operation) :
    (m.perform op).Agrees Alike (n.perform op) := by
  by_cases hop : op = .step
  · subst hop
    rw [Machine.perform, Machine.perform, Machine.step, Machine.step]
    exact h.state.step.map fun hs => ⟨hs, h.checked⟩
  · obtain ⟨index, stack, hi, hs, rfl⟩ := h.exists_withHidden
    obtain ⟨timers, keypad, registers, mode, hstate⟩ := perform_eq_update (m := m) hop
    rw [perform_withHidden hop]
    refine ⟨⟨State.alike_withHidden ?_ ?_, rfl⟩, rfl, rfl⟩
    · rw [hstate]
      exact hi
    · rw [hstate]
      exact hs

end Machine

/-! ### Sessions -/

/-- The playback seen as one that has left another machine. -/
def Playback.map (g : Machine → Machine) (p : Playback) : Playback :=
  { p with outcome := p.outcome.map g }

/-- The turn seen as one that has left another machine. -/
def Turn.map (g : Machine → Machine) (t : Turn) : Turn := { t with playback := t.playback.map g }

/-- The two sessions leave machines that are alike, and their users notice the same. -/
structure Playback.Agrees (p q : Playback) : Prop where
  /-- The outcomes agree. -/
  outcome : p.outcome.Agrees Machine.Alike q.outcome
  /-- The contacts with the user are the same. -/
  hooks : p.hooks = q.hooks

theorem Playback.Agrees.after {p q p' q' : Playback} (h : p.Agrees q) (h' : p'.Agrees q') :
    (p.after p').Agrees (q.after q') where
  outcome := h'.outcome.after h.outcome.reports
  hooks := by rw [Playback.after, Playback.after, h.hooks, h'.hooks]

namespace Machine

variable {m n : Machine} {index : Word} {stack : CallStack}

/-- What follows an instruction takes no notice of the hidden parts. -/
theorem finishTurn_withHidden (buzzing : Bool) (poll : Poll) (due : Nat) :
    (m.withHidden index stack).finishTurn buzzing poll due =
      (m.finishTurn buzzing poll due).map (·.withHidden index stack) := by
  have hcheck : (((m.withHidden index stack).editKeypad poll.edits).ticks due).check =
      ((m.editKeypad poll.edits).ticks due).check.map (·.withHidden index stack) :=
    check_withHidden (m := (m.editKeypad poll.edits).ticks due)
  rw [finishTurn, hcheck]
  rfl

theorem Alike.finishTurn (h : m.Alike n) (buzzing : Bool) (poll : Poll) (due : Nat) :
    (m.finishTurn buzzing poll due).playback.Agrees (n.finishTurn buzzing poll due).playback ∧
      (m.finishTurn buzzing poll due).buzzing = (n.finishTurn buzzing poll due).buzzing := by
  obtain ⟨index, stack, hi, hs, rfl⟩ := h.exists_withHidden
  obtain ⟨registers, mode, hstate⟩ :=
    check_eq_update (m := (m.editKeypad poll.edits).ticks due)
  have hend : (m.finishTurn buzzing poll due).playback.outcome.state = _ := hstate
  rw [finishTurn_withHidden]
  refine ⟨⟨⟨⟨State.alike_withHidden ?_ ?_, rfl⟩, rfl, rfl⟩, rfl⟩, rfl⟩
  · rw [hend]
    exact hi
  · rw [hend]
    exact hs

theorem Alike.turn (h : m.Alike n) (buzzing : Bool) (poll : Poll) (due : Nat) :
    (m.turn buzzing poll due).playback.Agrees (n.turn buzzing poll due).playback ∧
      (m.turn buzzing poll due).buzzing = (n.turn buzzing poll due).buzzing := by
  have hstep : m.step.Agrees Alike n.step := h.perform .step
  cases hf : m.step.fault with
  | some f =>
    have hf' : n.step.fault = some f := hstep.fault.symm.trans hf
    rw [Machine.turn, Machine.turn, hf, hf']
    exact ⟨⟨hstep, rfl⟩, rfl⟩
  | none =>
    have hf' : n.step.fault = none := hstep.fault.symm.trans hf
    obtain ⟨hplayback, hbuzzing⟩ := hstep.state.finishTurn buzzing poll due
    rw [Machine.turn, Machine.turn, hf, hf']
    have hstepped : Playback.Agrees ⟨m.step, []⟩ ⟨n.step, []⟩ := ⟨hstep, rfl⟩
    exact ⟨hstepped.after hplayback, hbuzzing⟩

theorem Alike.play (h : m.Alike n) (due : Nat → Nat) (buzzing : Bool) (k : Nat)
    (polls : List Poll) :
    (play due m buzzing k polls).Agrees (play due n buzzing k polls) := by
  induction polls generalizing m n buzzing k with
  | nil => exact (h.turn buzzing .quit (due k)).1
  | cons poll polls ih =>
    obtain ⟨hplayback, hbuzzing⟩ := h.turn buzzing poll (due k)
    rw [Machine.play, Machine.play, ← hplayback.outcome.fault, ← hbuzzing]
    split
    · exact hplayback
    · exact hplayback.after (ih hplayback.outcome.state _ _)

theorem Alike.run (h : m.Alike n) (config : Config) (due : Nat → Nat) (polls : List Poll) :
    (m.run config due polls).Agrees (n.run config due polls) := by
  have hplay := h.play due false 0 polls
  exact ⟨hplay.outcome.after rfl, hplay.hooks⟩

end Machine

/-! ### Answers -/

/-- What the surroundings notice of a call. -/
structure Answer where
  /-- The fault, if the call fails. -/
  fault : Option Fault
  /-- The reports, apart from the trace. -/
  reports : List Event
  /-- What a tick tells of the buzzer. -/
  buzzer : Option Buzzer
  /-- The contacts with the user in a session. -/
  hooks : List Hook
deriving DecidableEq

namespace Machine

/-- What a tick tells of the buzzer; other operations tell nothing of it. -/
def buzzerOf? (m : Machine) : Operation → Option Buzzer
  | .tick => some m.state.timers.buzzer
  | _ => none

/-- The answer of a machine to a call. -/
def answer (m : Machine) : Call → Answer
  | .single op =>
    { fault := (m.perform op).fault
      reports := visibleReports (m.perform op).log
      buzzer := m.buzzerOf? op
      hooks := [] }
  | .run config due polls =>
    { fault := (m.run config due polls).outcome.fault
      reports := visibleReports (m.run config due polls).outcome.log
      buzzer := none
      hooks := (m.run config due polls).hooks }

/-- The answers to one call after the other. -/
def answers : Machine → List Call → List Answer
  | _, [] => []
  | m, c :: calls => m.answer c :: answers (m.call c) calls

variable {m n : Machine}

theorem Alike.call (h : m.Alike n) (c : Call) :
    m.answer c = n.answer c ∧ (m.call c).Alike (n.call c) := by
  cases c with
  | single op =>
    have hop := h.perform op
    have hbuzzer : m.buzzerOf? op = n.buzzerOf? op := by
      cases op with
      | tick => exact congrArg (some ·.buzzer) h.state.timers
      | _ => rfl
    refine ⟨?_, hop.state⟩
    rw [answer, answer, hop.fault, hop.reports, hbuzzer]
  | run config due polls =>
    have hrun := h.run config due polls
    refine ⟨?_, hrun.outcome.state⟩
    rw [answer, answer, hrun.outcome.fault, hrun.outcome.reports, hrun.hooks]

/-- **What is hidden stays hidden.** Machines that are alike give the same answers, call by call,
and are alike afterwards. -/
theorem answers_of_alike (h : m.Alike n) (calls : List Call) :
    m.answers calls = n.answers calls ∧ (m.afterCalls calls).Alike (n.afterCalls calls) := by
  induction calls generalizing m n with
  | nil => exact ⟨rfl, h⟩
  | cons c calls ih =>
    obtain ⟨hanswer, halike⟩ := h.call c
    obtain ⟨hanswers, hafter⟩ := ih halike
    exact ⟨by rw [answers, answers, hanswer, hanswers], hafter⟩

/-- A new machine and one with other bits in both hidden parts, with a program that adds to the
index register, calls a routine and draws there. -/
theorem answers_of_alike_new :
    let m := new (.ofList [])
    let n := m.withHidden 0xF000 { slots := Bank.replicate 0x0ABC, depth := 0 }
    let calls : List Call :=
      [.single (.load [0xF1, 0x1E, 0x22, 0x04, 0xD0, 0x15]), .single .step, .single .tick,
        .run .standard (fun _ => 1) [⟨[.press 3], false⟩]]
    m.state.index ≠ n.state.index ∧ m.state.stack ≠ n.state.stack ∧
      m.answers calls = n.answers calls ∧ (m.afterCalls calls).Alike (n.afterCalls calls) := by
  intro m n calls
  have h : m.Alike n := ⟨State.alike_withHidden (by decide) (by decide), rfl⟩
  have hindex : m.state.index ≠ n.state.index := by decide
  have hstack : m.state.stack ≠ n.state.stack := by
    intro heq
    have hslot := congrArg (fun stack => stack.slots.get 0) heq
    exact absurd hslot (by decide)
  exact ⟨hindex, hstack, answers_of_alike h calls⟩

end Machine

end ChipEight
