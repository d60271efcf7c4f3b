import ChipEight.Execution

/-!
# What an instruction can change

Only five instructions move the program counter by themselves or touch the call stack, and these
change nothing else. Only two store into memory, and what they store is a list of bytes with
their addresses; only two set a timer, and only one takes a random number. Whatever a proof needs
to know of the other instructions follows from that, so it has to look at few of them.

* `Instruction.isTransfer` : the five transfers of control;
* `Instruction.execute_of_isTransfer`, `Instruction.execute_of_not_isTransfer` : they change the
  program counter and the call stack only, and the others change neither;
* `Instruction.stores`, `Instruction.timersAfter`, `Instruction.randomAfter` : what an instruction
  stores, and the timers and the random numbers that it leaves;
* `Instruction.execute_eq_update` : nothing else happens to these, and the keypad is only looked
  at;
* `Instruction.log_execute`, `Instruction.mem_execute_log` : the reports that an instruction makes;
* `State.step_of_running`, `State.step_of_waiting` : a step of the processor.
-/

namespace ChipEight

namespace State

variable {s : State} {target : Word}

theorem toNat_advance_pc : s.advance.pc.toNat = (s.pc.toNat + 2) % 0x1000 := by
  change ((s.pc + 2).address.setWidth 16 : Word).toNat = _
  rw [Word.toNat_address, BitVec.toNat_add]
  change (s.pc.toNat + 2) % 0x10000 % 0x1000 = _
  omega

theorem jump_of_isProgramAddress (h : isProgramAddress target = true) :
    s.jump target = .done { s with pc := target } :=
  if_pos h

theorem jump_of_not_isProgramAddress (h : isProgramAddress target = false) :
    s.jump target = .failed s (.invalidJumpTarget target s.site) :=
  if_neg (by simp [h])

/-- Whether it fails or not, a jump changes nothing but the program counter. -/
theorem state_jump (target : Word) :
    ∃ pc stack, (s.jump target).state = { s with pc := pc, stack := stack } := by
  cases h : isProgramAddress target with
  | true => exact ⟨target, s.stack, by rw [jump_of_isProgramAddress h]; rfl⟩
  | false => exact ⟨s.pc, s.stack, by rw [jump_of_not_isProgramAddress h]; rfl⟩

theorem log_jump (target : Word) : (s.jump target).log = [] := by
  cases h : isProgramAddress target with
  | true => rw [jump_of_isProgramAddress h]; rfl
  | false => rw [jump_of_not_isProgramAddress h]; rfl

theorem loadRegisters_eq_update (x : Digit) :
    ∃ registers, s.loadRegisters x = { s with registers := registers } := ⟨_, rfl⟩

theorem push_of_some {stack : CallStack} (h : s.stack.push? s.pc = some stack) :
    s.push = .done { s with stack := stack } := by
  rw [push, h]

theorem push_of_none (h : s.stack.push? s.pc = none) :
    s.push = .failed s (.stackOverflow s.site) := by
  rw [push, h]

theorem pop_of_some {pc : Word} {stack : CallStack} (h : s.stack.pop? = some (pc, stack)) :
    s.pop = .done { s with pc := pc, stack := stack } := by
  rw [pop, h]

theorem pop_of_none (h : s.stack.pop? = none) :
    s.pop = .failed s (.stackUnderflow s.site) := by
  rw [pop, h]

end State

namespace Instruction

/-- Whether an instruction transfers control: calls, returns, jumps or skips. -/
def isTransfer : Instruction → Bool
  | ret | jump _ | call _ | skip _ | jumpOffset _ => true
  | _ => false

variable {i : Instruction} (op : Word) (s : State)

/-! ### The program counter and the call stack -/

variable {s} in
theorem execute_call_of_some {nnn : Address} {stack : CallStack}
    (h : s.stack.push? s.pc = some stack) :
    (call nnn).execute op s = (State.jump { s with stack := stack } (nnn.setWidth 16)) := by
  simp only [execute, State.push_of_some h]
  rfl

variable {s} in
theorem execute_call_of_none {nnn : Address} (h : s.stack.push? s.pc = none) :
    (call nnn).execute op s = .failed s (.stackOverflow s.site) := by
  simp only [execute, State.push_of_none h]
  rfl

/-- A transfer of control changes nothing but the program counter and the call stack. -/
theorem execute_of_isTransfer (h : i.isTransfer = true) :
    ∃ pc stack, (i.execute op s).state = { s with pc := pc, stack := stack } := by
  cases i with
  | ret =>
    cases hp : s.stack.pop? with
    | none => exact ⟨s.pc, s.stack, by rw [execute, State.pop_of_none hp]; rfl⟩
    | some p => exact ⟨p.1, p.2, by rw [execute, State.pop_of_some hp]; rfl⟩
  | jump nnn => exact State.state_jump _
  | call nnn =>
    cases hp : s.stack.push? s.pc with
    | none => exact ⟨s.pc, s.stack, by rw [execute_call_of_none op hp]; rfl⟩
    | some stack =>
      rw [execute_call_of_some op hp]
      exact State.state_jump (nnn.setWidth 16)
  | skip c =>
    by_cases hc : c.holds s
    · exact ⟨s.advance.pc, s.stack, by simp only [execute, hc, ↓reduceIte]; rfl⟩
    · exact ⟨s.pc, s.stack, by simp only [execute, hc]; rfl⟩
  | jumpOffset nnn => exact State.state_jump _
  | _ => cases h

theorem log_of_isTransfer (h : i.isTransfer = true) : (i.execute op s).log = [] := by
  cases i with
  | ret =>
    cases hp : s.stack.pop? with
    | none => rw [execute, State.pop_of_none hp]; rfl
    | some p => rw [execute, State.pop_of_some hp]; rfl
  | call nnn =>
    cases hp : s.stack.push? s.pc with
    | none => rw [execute_call_of_none op hp]; rfl
    | some stack => rw [execute_call_of_some op hp, State.log_jump]
  | skip c => rfl
  | jump | jumpOffset => exact State.log_jump _
  | _ => cases h

theorem apply_eq_update (f : Arith) (x y : Digit) :
    ∃ registers, f.apply x y s = { s with registers := registers } := by
  cases f <;> exact ⟨_, rfl⟩

/-- Any other instruction leaves both of them as they are. -/
theorem execute_of_not_isTransfer (h : i.isTransfer = false) :
    (i.execute op s).state.pc = s.pc ∧ (i.execute op s).state.stack = s.stack := by
  cases i with
  | ret | jump | call | skip | jumpOffset => cases h
  | arith f x y =>
    obtain ⟨registers, hs⟩ := apply_eq_update s f x y
    rw [execute, hs]
    exact ⟨rfl, rfl⟩
  | loadRegisters x =>
    -- what the registers hold then does not matter, and is costly to unfold
    obtain ⟨registers, hs⟩ := s.loadRegisters_eq_update x
    rw [execute, hs]
    exact ⟨rfl, rfl⟩
  | _ => exact ⟨rfl, rfl⟩

/-! ### The memory, the timers, the random numbers and the keypad -/

/-- The bytes that an instruction stores, with their addresses. -/
def stores (s : State) : Instruction → List (Address × Byte)
  | storeDecimal x =>
    Memory.cells s.index.address (Byte.decimalDigits (s.registers.get x))
  | storeRegisters x =>
    Memory.cells s.index.address (s.registers.toList.take (x.toNat + 1))
  | _ => []

/-- The timers that an instruction leaves. -/
def timersAfter (s : State) : Instruction → Timers
  | setDelay x => { s.timers with delay := s.registers.get x }
  | setSound x => { s.timers with sound := s.registers.get x }
  | _ => s.timers

/-- The random numbers that an instruction leaves. -/
def randomAfter (s : State) : Instruction → RandomSource
  | random _ _ => s.random.advance
  | _ => s.random

/-- An instruction stores its bytes, sets its timer and takes its random number, and does nothing
else to the memory, the timers and the random numbers. The keypad stays as it is. -/
theorem execute_eq_update :
    ∃ registers index pc stack frame mode, (i.execute op s).state =
      { s with
        memory := s.memory.storeAll (i.stores s)
        timers := i.timersAfter s
        random := i.randomAfter s
        registers := registers, index := index, pc := pc, stack := stack, frame := frame,
        mode := mode } := by
  cases h : i.isTransfer with
  | true =>
    obtain ⟨pc, stack, hs⟩ := execute_of_isTransfer op s h
    refine ⟨s.registers, s.index, pc, stack, s.frame, s.mode, ?_⟩
    rw [hs]
    cases i with
    | ret | jump | call | skip | jumpOffset => rfl
    | _ => cases h
  | false =>
    cases i with
    | ret | jump | call | skip | jumpOffset => cases h
    | arith f x y =>
      obtain ⟨registers, hs⟩ := apply_eq_update s f x y
      rw [execute, hs]
      exact ⟨registers, _, _, _, _, _, rfl⟩
    | loadRegisters x =>
      obtain ⟨registers, hs⟩ := s.loadRegisters_eq_update x
      rw [execute, hs]
      exact ⟨registers, _, _, _, _, _, rfl⟩
    | _ => exact ⟨_, _, _, _, _, _, rfl⟩

theorem execute_memory :
    (i.execute op s).state.memory = s.memory.storeAll (i.stores s) := by
  obtain ⟨registers, index, pc, stack, frame, mode, hs⟩ := execute_eq_update op s (i := i)
  rw [hs]

theorem execute_keypad : (i.execute op s).state.keypad = s.keypad := by
  obtain ⟨registers, index, pc, stack, frame, mode, hs⟩ := execute_eq_update op s (i := i)
  rw [hs]

theorem execute_timersAfter : (i.execute op s).state.timers = i.timersAfter s := by
  obtain ⟨registers, index, pc, stack, frame, mode, hs⟩ := execute_eq_update op s (i := i)
  rw [hs]

theorem execute_randomAfter : (i.execute op s).state.random = i.randomAfter s := by
  obtain ⟨registers, index, pc, stack, frame, mode, hs⟩ := execute_eq_update op s (i := i)
  rw [hs]

theorem randomAfter_of_ne (h : ∀ x kk, i ≠ random x kk) : i.randomAfter s = s.random := by
  cases i with
  | random x kk => exact absurd rfl (h x kk)
  | _ => rfl

/-! ### The reports -/

/-- The reports of an instruction on key waits. -/
def waitReports : Instruction → List Event
  | awaitKey x => [.awaitingKey x]
  | _ => []

/-- An instruction reports those of its stores that are dropped, in order, and a key wait if it
starts one. -/
theorem log_execute :
    (i.execute op s).log = (i.stores s).filterMap s.dropReport? ++ i.waitReports := by
  cases h : i.isTransfer with
  | true =>
    rw [log_of_isTransfer op s h]
    cases i with
    | ret | jump | call | skip | jumpOffset => rfl
    | _ => cases h
  | false =>
    cases i with
    | ret | jump | call | skip | jumpOffset => cases h
    | storeDecimal x | storeRegisters x => exact (List.append_nil _).symm
    | _ => rfl

/-- An instruction reports stores that are dropped, or a key wait, and nothing else. -/
theorem mem_execute_log {e : Event} (h : e ∈ (i.execute op s).log) :
    (∃ v a site, e = .droppedStore v a site) ∨ ∃ x, e = .awaitingKey x := by
  rw [log_execute, List.mem_append] at h
  rcases h with h | h
  · obtain ⟨c, -, hc⟩ := List.mem_filterMap.1 h
    rw [State.dropReport?] at hc
    split at hc
    · exact .inl ⟨c.2, c.1, s.site, (Option.some.inj hc).symm⟩
    · cases hc
  · cases i with
    | awaitKey x => exact .inr ⟨x, List.mem_singleton.1 h⟩
    | _ => cases h

end Instruction

namespace State

variable {s : State}

theorem step_of_running (h : s.mode = .running) :
    s.step = (s.perform s.fetch s.fetch).after [s.trace] := by
  rw [step, h]

theorem step_of_decode {i : Instruction} (h : s.mode = .running)
    (hi : Instruction.decode s.fetch = i) :
    s.step = (i.execute s.fetch s.advance).after [s.trace] := by
  rw [step_of_running h, perform, hi]

theorem step_of_waiting {x : Digit} (h : s.mode = .waiting x) : s.step = .done s := by
  rw [step, h]

theorem step_keypad : s.step.state.keypad = s.keypad := by
  cases h : s.mode with
  | running =>
    rw [step_of_running h]
    exact Instruction.execute_keypad s.fetch s.advance
  | waiting x => rw [step_of_waiting h]; rfl

end State

end ChipEight
