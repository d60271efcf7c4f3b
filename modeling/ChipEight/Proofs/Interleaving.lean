import ChipEight.Proofs.Observation

/-!
# Interleavings

Between two instructions the timers may tick and keys may go down and up. Only three instructions
use the timers, and only two look at the keypad. To all others it makes no difference whether they
come before or after such an input, so inputs that no instruction heeds can be put off, one step
after the other, to the end.

* `Instruction.usesTimers`, `Instruction.looksAtKeypad` : the instructions that heed an input;
* `State.disturb`, `Instruction.execute_disturb` : other timers and another keypad, and that the
  rest of the instructions commute with them;
* `Machine.Commutes` : two operations that may be exchanged;
* `Machine.SameCourse` : two lists of operations that amount to the same;
* `Machine.sameCourse_delay` : an input put off behind several steps;
* `Machine.sameCourse_stepsFirst` : all inputs put off to the end;
* `Machine.sameCourse_of_interleaving` : the result, for ticks, for keys and for both of them.
-/

namespace ChipEight

namespace Instruction

/-- Whether an instruction reads or sets a timer. -/
def usesTimers : Instruction → Bool
  | readDelay _ | setDelay _ | setSound _ => true
  | _ => false

/-- Whether an instruction depends on the keys that are down. -/
def looksAtKeypad : Instruction → Bool
  | skip (.keyDown _) | skip (.keyUp _) => true
  | _ => false

end Instruction

/-! ### Other timers and another keypad -/

namespace State

/-- The state with its timers and its keypad changed. -/
def disturb (s : State) (f : Timers → Timers) (g : Keypad → Keypad) : State :=
  { s with timers := f s.timers, keypad := g s.keypad }

variable {s : State} {f : Timers → Timers} {g : Keypad → Keypad}

theorem holds_disturb {c : Condition} (hg : (Instruction.skip c).looksAtKeypad = true → g = id) :
    c.holds (s.disturb f g) = c.holds s := by
  cases c with
  | keyDown x | keyUp x =>
    obtain rfl := hg rfl
    rfl
  | _ => rfl

theorem jump_disturb (target : Word) :
    (s.disturb f g).jump target = (s.jump target).map (·.disturb f g) := by
  rw [jump, jump]
  split
  · rfl
  · rfl

end State

namespace Instruction

open State

variable {s : State} {f : Timers → Timers} {g : Keypad → Keypad}

/-- An instruction commutes with a change of the timers unless it uses them, and with a change of
the keypad unless it looks at it. -/
theorem execute_disturb {i : Instruction} (op : Word) (hf : i.usesTimers = true → f = id)
    (hg : i.looksAtKeypad = true → g = id) :
    i.execute op (s.disturb f g) = (i.execute op s).map (·.disturb f g) := by
  cases i with
  | ret =>
    cases hp : s.stack.pop? with
    | none => rw [execute, execute, pop_of_none hp, pop_of_none (s := s.disturb f g) hp]; rfl
    | some p => rw [execute, execute, pop_of_some hp, pop_of_some (s := s.disturb f g) hp]; rfl
  | call nnn =>
    cases hp : s.stack.push? s.pc with
    | none =>
      rw [execute_call_of_none op hp, execute_call_of_none (s := s.disturb f g) op hp]
      rfl
    | some stack =>
      rw [execute_call_of_some op hp, execute_call_of_some (s := s.disturb f g) op hp]
      exact jump_disturb (s := { s with stack := stack }) _
  | jump nnn => exact jump_disturb _
  | jumpOffset nnn => exact jump_disturb _
  | skip c =>
    rw [execute, execute, holds_disturb hg]
    split
    · rfl
    · rfl
  | arith f x y => cases f <;> rfl
  | readDelay x | setDelay x | setSound x =>
    obtain rfl := hf rfl
    rfl
  | _ => rfl

/-- An instruction that does not use the timers leaves them as they are. -/
theorem execute_timers {i : Instruction} (op : Word) (h : i.usesTimers = false) :
    (i.execute op s).state.timers = s.timers := by
  -- it commutes with setting the timers to what they are
  have hs := execute_disturb (s := s) (f := fun _ => s.timers) (g := id) op
    (fun h' => absurd (h.symm.trans h') (by decide)) fun _ => rfl
  exact congrArg (fun o => o.state.timers) hs

end Instruction

/-! ### Inputs -/

namespace Operation

/-- Whether an operation is a tick of the timers or a change of the keypad. -/
def isInput : Operation → Bool
  | tick | key _ => true
  | _ => false

/-- What an input does to the timers. -/
def onTimers : Operation → Timers → Timers
  | tick, t => t.after 1
  | _, t => t

/-- What an input does to the keypad. -/
def onKeypad : Operation → Keypad → Keypad
  | key edit, p => edit.apply p
  | _, p => p

end Operation

/-- Whether an instruction can tell if an input has come before it. -/
def Instruction.heeds (i : Instruction) : Operation → Bool
  | .tick => i.usesTimers
  | .key _ => i.looksAtKeypad
  | _ => false

namespace Machine

/-- The machine with its timers and its keypad changed. -/
def disturb (m : Machine) (f : Timers → Timers) (g : Keypad → Keypad) : Machine :=
  { m with state := m.state.disturb f g }

variable (m : Machine)

/-- The instruction that an operation executes, if it executes one. -/
def instructionOf (op : Operation) : List Instruction := (m.wordOf? op).toList.map .decode

/-- All instructions that are executed, in order, whether they succeed or fail. -/
def instructions (ops : List Operation) : List Instruction := m.along instructionOf ops

/-- The answers to the operations that `p` selects, in order. -/
def answersTo (p : Operation → Bool) (ops : List Operation) : List Answer :=
  m.along (fun m op => if p op then [m.answer (.single op)] else []) ops

/-- Two operations may be exchanged: neither the machine after both of them nor their answers
tell which one came first. -/
structure Commutes (a b : Operation) : Prop where
  /-- Both orders leave the same machine. -/
  state : m.after [a, b] = m.after [b, a]
  /-- The first operation has the same answer after the second one. -/
  first : (m.perform b).state.answer (.single a) = m.answer (.single a)
  /-- The second operation has the same answer after the first one. -/
  second : (m.perform a).state.answer (.single b) = m.answer (.single b)

/-- Two lists of operations amount to the same, apart from how steps and other operations follow
each other. -/
structure SameCourse (ops ops' : List Operation) : Prop where
  /-- They leave the same machine. -/
  state : m.after ops = m.after ops'
  /-- The same instructions are executed. -/
  instructions : m.instructions ops = m.instructions ops'
  /-- The steps have the same answers, in order. -/
  steps : m.answersTo (· = .step) ops = m.answersTo (· = .step) ops'
  /-- So have all other operations. -/
  others : m.answersTo (· ≠ .step) ops = m.answersTo (· ≠ .step) ops'

variable {m} {f : Timers → Timers} {g : Keypad → Keypad} {op : Operation}
  {ops ops' ops'' later : List Operation}

theorem perform_of_isInput (h : op.isInput = true) :
    m.perform op = .done (m.disturb op.onTimers op.onKeypad) := by
  cases op with
  | tick | key edit => rfl
  | _ => cases h

theorem decode_mem_instructionOf (h : m.state.mode = .running) :
    .decode m.state.fetch ∈ m.instructionOf .step := by
  simp [instructionOf, wordOf?, h]

/-- A step commutes with a change of the timers and of the keypad that its instruction does not
notice. -/
theorem step_disturb (hf : ∀ i ∈ m.instructionOf .step, i.usesTimers = true → f = id)
    (hg : ∀ i ∈ m.instructionOf .step, i.looksAtKeypad = true → g = id) :
    (m.disturb f g).step = m.step.map (·.disturb f g) := by
  cases hm : m.state.mode with
  | waiting x => rw [step_of_waiting hm, step_of_waiting (m := m.disturb f g) hm]; rfl
  | running =>
    have hi := decode_mem_instructionOf hm
    have hexec := Instruction.execute_disturb (s := m.state.advance) m.state.fetch
      (hf _ hi) (hg _ hi)
    have hs : (m.state.disturb f g).step = m.state.step.map (·.disturb f g) := by
      rw [State.step_of_running hm, State.step_of_running (s := m.state.disturb f g) hm]
      exact congrArg (Outcome.after [m.state.trace]) hexec
    rw [step, step]
    exact congrArg (Outcome.map fun s => { m with state := s }) hs

theorem step_timers (h : ∀ i ∈ m.instructionOf .step, i.usesTimers = false) :
    m.step.state.state.timers = m.state.timers := by
  cases hm : m.state.mode with
  | waiting x => rw [step_of_waiting hm]; rfl
  | running =>
    rw [step, State.step_of_running hm]
    exact Instruction.execute_timers (s := m.state.advance) m.state.fetch
      (h _ (decode_mem_instructionOf hm))

theorem check_disturb : (m.disturb f id).check = m.check.map (·.disturb f id) := by
  have hmode : (m.disturb f id).state.mode = m.state.mode := rfl
  have hfresh : (m.disturb f id).state.keypad.freshKey? (m.disturb f id).checked =
      m.state.keypad.freshKey? m.checked := rfl
  rw [check, check, hmode, hfresh]
  split
  · rfl
  · rfl

theorem check_timers : m.check.state.state.timers = m.state.timers := by
  obtain ⟨registers, mode, h⟩ := check_eq_update (m := m)
  rw [h]

/-! ### Two operations -/

/-- An input commutes with an operation that does the same on the machine disturbed by it. -/
theorem commutes_of_perform_disturb {a b : Operation} (ha : a.isInput = true) (hb : b ≠ .tick)
    (h : (m.disturb a.onTimers a.onKeypad).perform b =
      (m.perform b).map (·.disturb a.onTimers a.onKeypad))
    (ht : a = .tick → (m.perform b).state.state.timers = m.state.timers) : m.Commutes a b := by
  refine ⟨?_, ?_, ?_⟩
  · rw [after_cons, after_cons, after_cons, after_cons, perform_of_isInput ha,
      perform_of_isInput ha, Outcome.state_done, h]
    rfl
  · -- only the answer to a tick depends on the machine
    cases a with
    | tick => exact congrArg (fun t : Timers => (⟨none, [], some t.buzzer, []⟩ : Answer)) (ht rfl)
    | key edit => rfl
    | _ => cases ha
  · rw [answer, answer, perform_of_isInput ha, Outcome.state_done, h]
    cases b with
    | tick => exact absurd rfl hb
    | _ => rfl

theorem commutes_step (hop : op.isInput = true)
    (h : ∀ i ∈ m.instructionOf .step, i.heeds op = false) : m.Commutes op .step := by
  cases op with
  | tick =>
    refine commutes_of_perform_disturb rfl (by simp) (step_disturb ?_ ?_) fun _ => step_timers h
    · intro i hi hu
      exact absurd ((h i hi).symm.trans hu) (by decide)
    · intro i hi hl
      rfl
  | key edit =>
    refine commutes_of_perform_disturb rfl (by simp) (step_disturb ?_ ?_) fun hk => by cases hk
    · intro i hi hu
      rfl
    · intro i hi hl
      exact absurd ((h i hi).symm.trans hl) (by decide)
  | _ => cases hop

theorem commutes_tick (h : op = .check ∨ ∃ edit, op = .key edit) : m.Commutes .tick op := by
  obtain rfl | ⟨edit, rfl⟩ := h
  · exact commutes_of_perform_disturb rfl (by simp) check_disturb fun _ => check_timers
  · exact commutes_of_perform_disturb rfl (by simp) rfl fun _ => rfl

/-! ### Courses -/

theorem instructions_cons :
    m.instructions (op :: ops) = m.instructionOf op ++ (m.perform op).state.instructions ops := rfl

theorem answersTo_cons {p : Operation → Bool} :
    m.answersTo p (op :: ops) =
      (if p op then [m.answer (.single op)] else []) ++ (m.perform op).state.answersTo p ops := rfl

namespace SameCourse

theorem refl : m.SameCourse ops ops := ⟨rfl, rfl, rfl, rfl⟩

theorem trans (h : m.SameCourse ops ops') (h' : m.SameCourse ops' ops'') :
    m.SameCourse ops ops'' where
  state := h.state.trans h'.state
  instructions := h.instructions.trans h'.instructions
  steps := h.steps.trans h'.steps
  others := h.others.trans h'.others

theorem cons (h : (m.perform op).state.SameCourse ops ops') :
    m.SameCourse (op :: ops) (op :: ops') where
  state := h.state
  instructions := by rw [instructions_cons, instructions_cons, h.instructions]
  steps := by rw [answersTo_cons, answersTo_cons, h.steps]
  others := by rw [answersTo_cons, answersTo_cons, h.others]

end SameCourse

theorem instructions_of_isInput (hop : op.isInput = true) :
    m.instructions (op :: ops) = (m.perform op).state.instructions ops := by
  cases op with
  | tick | key edit => rfl
  | _ => cases hop

theorem instructionOf_step_of_isInput (hop : op.isInput = true) :
    (m.perform op).state.instructionOf .step = m.instructionOf .step := by
  cases op with
  | tick | key edit => rfl
  | _ => cases hop

theorem ne_step_of_isInput (hop : op.isInput = true) : op ≠ .step := by
  rintro rfl
  cases hop

/-- An input can be put off behind the step after it, if its instruction does not heed it. -/
theorem sameCourse_swap (hop : op.isInput = true)
    (h : ∀ i ∈ m.instructionOf .step, i.heeds op = false) :
    m.SameCourse (op :: .step :: later) (.step :: op :: later) := by
  have hcomm := commutes_step hop h
  have hstate : ((m.perform op).state.perform .step).state =
      ((m.perform .step).state.perform op).state := hcomm.state
  refine ⟨?_, ?_, ?_, ?_⟩
  · rw [after_cons, after_cons, after_cons, after_cons, hstate]
  · rw [instructions_of_isInput hop, instructions_cons, instructions_cons, hstate,
      instructions_of_isInput hop, instructionOf_step_of_isInput hop]
  · simp only [answersTo_cons, ne_step_of_isInput hop, hcomm.second, hstate]
    rfl
  · simp only [answersTo_cons, hcomm.first, hstate]
    rfl

/-- An input can be put off behind several steps, if none of their instructions heeds it. -/
theorem sameCourse_delay {steps : List Operation} (hop : op.isInput = true)
    (hsteps : ∀ s ∈ steps, s = .step)
    (h : ∀ i ∈ m.instructions (op :: steps), i.heeds op = false) :
    m.SameCourse (op :: (steps ++ later)) (steps ++ op :: later) := by
  -- a step that the input has been put off behind leaves the machine from which it is put off on
  induction steps generalizing m with
  | nil => exact .refl
  | cons s steps ih =>
    obtain ⟨rfl, hrest⟩ := List.forall_mem_cons.1 hsteps
    have hfirst : ∀ i ∈ m.instructionOf .step, i.heeds op = false := by
      intro i hi
      refine h i ?_
      rw [instructions_of_isInput hop, instructions_cons, instructionOf_step_of_isInput hop]
      exact List.mem_append_left _ hi
    have hlater : ∀ i ∈ (m.perform .step).state.instructions (op :: steps),
        i.heeds op = false := by
      intro i hi
      refine h i ?_
      rw [(sameCourse_swap hop hfirst).instructions, instructions_cons]
      exact List.mem_append_right _ hi
    exact (sameCourse_swap hop hfirst).trans (.cons (ih hrest hlater))

/-- All steps, and then all other operations. -/
def stepsFirst (ops : List Operation) : List Operation :=
  ops.filter (· = .step) ++ ops.filter (· ≠ .step)

/-- All inputs can be put off to the end, if no instruction heeds any of them. -/
theorem sameCourse_stepsFirst (hops : ∀ op ∈ ops, op = .step ∨ op.isInput = true)
    (h : ∀ i ∈ m.instructions ops, ∀ op ∈ ops, i.heeds op = false) :
    m.SameCourse ops (stepsFirst ops) := by
  induction ops generalizing m with
  | nil => exact .refl
  | cons op ops ih =>
    obtain ⟨hop, hops⟩ := List.forall_mem_cons.1 hops
    have hrest : (m.perform op).state.SameCourse ops (stepsFirst ops) := by
      refine ih hops fun i hi op' hop' => ?_
      exact h i (List.mem_append_right _ hi) op' (List.mem_cons_of_mem _ hop')
    obtain rfl | hop := hop
    · have hfirst : stepsFirst (.step :: ops) = .step :: stepsFirst ops := by simp [stepsFirst]
      rw [hfirst]
      exact hrest.cons
    · -- what comes after this input has been sorted, so that all steps stand right behind it
      have hlast : stepsFirst (op :: ops) =
          ops.filter (· = .step) ++ op :: ops.filter (· ≠ .step) := by
        simp [stepsFirst, ne_step_of_isInput hop]
      rw [hlast]
      refine hrest.cons.trans (sameCourse_delay hop (by simp) fun i hi => ?_)
      refine h i ?_ op List.mem_cons_self
      rw [hrest.cons.instructions, stepsFirst, ← List.cons_append, instructions, along_append]
      exact List.mem_append_left _ hi

/-- **What nothing heeds may come at any time.** Ticks among steps of which no instruction uses the
timers, and changes of the keypad among steps of which no instruction looks at it, can all be put
off until after the steps: the machine is the same afterwards, each step has the same answer, and so
has each of the others. Ticks and what the user does to the keypad may be exchanged always, and so
may ticks and checks of a key wait. -/
theorem sameCourse_of_interleaving (m : Machine) (ops : List Operation) :
    ((∀ op ∈ ops, op = .step ∨ op = .tick) → (∀ i ∈ m.instructions ops, i.usesTimers = false) →
      m.SameCourse ops (stepsFirst ops)) ∧
    ((∀ op ∈ ops, op = .step ∨ ∃ edit, op = .key edit) →
      (∀ i ∈ m.instructions ops, i.looksAtKeypad = false) →
      m.SameCourse ops (stepsFirst ops)) ∧
    ∀ op, (op = .check ∨ ∃ edit, op = .key edit) → m.Commutes .tick op := by
  refine ⟨fun hops h => ?_, fun hops h => ?_, fun op => commutes_tick⟩
  · refine sameCourse_stepsFirst (fun op hop => ?_) fun i hi op hop => ?_
    · exact (hops op hop).imp_right fun ht => by rw [ht]; rfl
    · obtain rfl | rfl := hops op hop
      · rfl
      · exact h i hi
  · refine sameCourse_stepsFirst (fun op hop => ?_) fun i hi op hop => ?_
    · exact (hops op hop).imp_right fun ⟨edit, he⟩ => by rw [he]; rfl
    · obtain rfl | ⟨edit, rfl⟩ := hops op hop
      · rfl
      · exact h i hi

theorem instructions_of_awaitKey {x : Digit} (hm : m.state.mode = .running)
    (hi : Instruction.decode m.state.fetch = .awaitKey x) :
    m.instructions [.tick, .step, .tick, .step, .tick] = [.awaitKey x] := by
  have hwaits : m.tick.step.state.tick.state.mode = .waiting x := by
    rw [step, State.step_of_decode (s := m.tick.state) hm hi]
    rfl
  have hticked : m.tick.state.mode = .running := hm
  have hfirst : m.tick.instructionOf .step = [.decode m.state.fetch] := by
    rw [instructionOf, wordOf?, if_pos hticked]
    rfl
  have hsecond : m.tick.step.state.tick.instructionOf .step = [] := by
    rw [instructionOf, wordOf?, if_neg (by simp [hwaits])]
    rfl
  change m.tick.instructionOf .step ++ (m.tick.step.state.tick.instructionOf .step ++ []) = _
  rw [hfirst, hsecond, hi]
  rfl

/-- Ticks around the steps of a machine that begins to wait for a key, and keys around the step of
a new machine, which fails. -/
theorem sameCourse_of_interleaving_new :
    let m := new (.ofList [])
    let waits : Machine :=
      { m with state := { m.state with
          memory := m.state.memory.load [0xF5, 0x0A], timers := ⟨5, 2⟩ } }
    let ticking : List Operation := [.tick, .step, .tick, .step, .tick]
    let typing : List Operation := [.key (.press 3), .step, .key (.release 3)]
    waits.instructions ticking = [.awaitKey 5] ∧
      waits.SameCourse ticking [.step, .step, .tick, .tick, .tick] ∧
      m.instructions typing = [.sys 0] ∧
      m.SameCourse typing [.step, .key (.press 3), .key (.release 3)] ∧
      m.Commutes .tick .check := by
  intro m waits ticking typing
  have hwaits : waits.state.fetch = 0xF50A := by
    rw [State.fetch, Memory.wordAt, Memory.get_load, Memory.get_load]
    decide
  have hfails : m.state.fetch = 0x0000 := by
    rw [State.fetch, Memory.wordAt]
    change Word.ofBytes (Memory.initial.get 0x200) (Memory.initial.get 0x201) = 0
    rw [Memory.get_initial, Memory.get_initial]
    decide
  have hticking : waits.instructions ticking = [.awaitKey 5] :=
    instructions_of_awaitKey rfl (by rw [hwaits]; decide)
  have htyping : m.instructions typing = [.sys 0] := by
    change [Instruction.decode m.state.fetch] = _
    rw [hfails]
    decide
  refine ⟨hticking, ?_, htyping, ?_, (sameCourse_of_interleaving m []).2.2 .check (.inl rfl)⟩
  · refine (sameCourse_of_interleaving waits ticking).1 (by decide) ?_
    rw [hticking]
    decide
  · refine (sameCourse_of_interleaving m typing).2.1 (by simp [typing]) ?_
    rw [htyping]
    decide

end Machine

end ChipEight
