import ChipEight.Proofs.Rounds

/-!
# Odd places

Instructions are two bytes long and programs start at an even place, so one would expect the
program counter to be even. It need not be: a jump or a call may have an odd target. But there is no
other way to an odd place. Going on, skipping and going round the end of memory keep the parity,
and a return goes where a call has come from; the return address that a failing call leaves behind
is no exception. The slots that returns have freed keep what they hold, so the invariant speaks of
all slots.

* `Instruction.target?` : where an instruction jumps to;
* `State.IsEven` : the invariant;
* `State.IsEven.execute` : an instruction keeps it, unless it jumps to an odd place;
* `Machine.jumps` : the targets of all jumps and calls that succeed;
* `Machine.even_of_even_jumps` : the result for whole histories.
-/

namespace ChipEight

/-- The place that an instruction jumps to or calls, if it is one that does. -/
def Instruction.target? (s : State) : Instruction → Option Address
  | jump nnn | call nnn => some nnn
  | jumpOffset nnn => some (nnn + (s.registers.get 0).setWidth 12)
  | _ => none

namespace State

/-- The program counter and all slots of the call stack, in use or not, are even. -/
structure IsEven (s : State) : Prop where
  /-- The program counter is even. -/
  pc : 2 ∣ s.pc.toNat
  /-- So is every slot of the call stack. -/
  slot : ∀ k, 2 ∣ (s.stack.slots.get k).toNat

namespace IsEven

variable {s t : State}

theorem initial (random : RandomSource) : (State.initial random).IsEven where
  pc := by
    change 2 ∣ (programStart.setWidth 16 : Word).toNat
    decide
  slot k := by
    change 2 ∣ (CallStack.empty.slots.get k).toNat
    rw [CallStack.empty, Bank.get_replicate]
    decide

theorem of_eq (h : s.IsEven) (hpc : t.pc = s.pc) (hstack : t.stack = s.stack) : t.IsEven where
  pc := hpc ▸ h.pc
  slot := hstack ▸ h.slot

/-- The next instruction is two bytes further on, and the end of memory is even. -/
theorem advance (h : s.IsEven) : s.advance.IsEven where
  pc := by
    have hpc := h.pc
    rw [toNat_advance_pc]
    omega
  slot := h.slot

theorem jump (h : s.IsEven) {a : Address}
    (ha : (s.jump (a.setWidth 16)).fault = none → 2 ∣ a.toNat) :
    (s.jump (a.setWidth 16)).state.IsEven := by
  cases ht : isProgramAddress (a.setWidth 16) with
  | true =>
    rw [jump_of_isProgramAddress ht] at ha ⊢
    refine ⟨?_, h.slot⟩
    change 2 ∣ (a.setWidth 16 : Word).toNat
    rw [BitVec.toNat_setWidth_of_le (by decide)]
    exact ha rfl
  | false =>
    rw [jump_of_not_isProgramAddress ht]
    exact h

theorem push (h : s.IsEven) {stack : CallStack} (hp : s.stack.push? s.pc = some stack) :
    ({ s with stack := stack } : State).IsEven :=
  ⟨h.pc, CallStack.forall_slot_of_push? (P := fun w => 2 ∣ w.toNat) hp h.slot h.pc⟩

theorem pop (h : s.IsEven) {pc : Word} {stack : CallStack}
    (hp : s.stack.pop? = some (pc, stack)) :
    ({ s with pc := pc, stack := stack } : State).IsEven := by
  obtain ⟨-, rfl, hslots⟩ := CallStack.pop?_eq_some hp
  exact ⟨h.slot _, fun k => hslots ▸ h.slot k⟩

/-- An instruction keeps the invariant, whether it fails or not, unless it jumps to an odd place
and succeeds. -/
theorem execute (h : s.IsEven) (i : Instruction) (op : Word)
    (ht : (i.execute op s).fault = none → ∀ a, i.target? s = some a → 2 ∣ a.toNat) :
    (i.execute op s).state.IsEven := by
  cases hi : i.isTransfer with
  | false =>
    obtain ⟨hpc, hstack⟩ := Instruction.execute_of_not_isTransfer op s hi
    exact h.of_eq hpc hstack
  | true =>
    cases i with
    | ret =>
      cases hp : s.stack.pop? with
      | none =>
        rw [Instruction.execute, pop_of_none hp]
        exact h
      | some p =>
        rw [Instruction.execute, pop_of_some hp]
        exact h.pop hp
    | jump nnn => exact h.jump fun hf => ht hf nnn rfl
    | call nnn =>
      cases hp : s.stack.push? s.pc with
      | none =>
        rw [Instruction.execute_call_of_none op hp]
        exact h
      | some stack =>
        -- the return address is on the stack even if the jump fails then
        rw [Instruction.execute_call_of_some op hp] at ht ⊢
        exact (h.push hp).jump fun hf => ht hf nnn rfl
    | skip c =>
      by_cases hc : c.holds s
      · simp only [Instruction.execute, hc, ↓reduceIte]
        exact h.advance
      · simp only [Instruction.execute, hc]
        exact h
    | jumpOffset nnn => exact h.jump fun hf => ht hf _ rfl
    | _ => cases hi

end IsEven

end State

namespace Machine

variable {m : Machine} {op : Operation} {ops : List Operation}

/-- The place that an operation jumps to or calls, if it executes an instruction that does and that
succeeds. -/
def jumpOf? (m : Machine) (op : Operation) : Option Address :=
  match m.wordOf? op, (m.perform op).fault with
  | some w, none => (Instruction.decode w).target? m.state
  | _, _ => none

/-- The places that operations jump to or call, in order. -/
def jumps (m : Machine) (ops : List Operation) : List Address :=
  m.along (fun m op => (m.jumpOf? op).toList) ops

theorem jumps_cons :
    m.jumps (op :: ops) = (m.jumpOf? op).toList ++ (m.perform op).state.jumps ops := rfl

theorem isEven_perform (h : m.state.IsEven) (hj : ∀ a ∈ m.jumpOf? op, 2 ∣ a.toNat) :
    (m.perform op).state.state.IsEven := by
  cases hw : m.wordOf? op with
  | none =>
    rcases perform_of_wordOf?_none hw with ⟨-, hdone⟩ | hop
    · rw [hdone]
      exact h
    · obtain ⟨timers, keypad, registers, mode, hs⟩ := perform_eq_update (m := m) hop
      rw [hs]
      exact h.of_eq rfl rfl
  | some w =>
    have hf : (m.perform op).fault = (m.state.perform w w).fault := by
      rw [perform_of_wordOf?_some hw, Outcome.fault_map, Outcome.fault_after]
    rw [state_of_wordOf?_some hw]
    refine h.advance.execute _ w fun hnone a ha => hj a ?_
    -- the target is looked up in the registers, which going on does not touch
    rw [jumpOf?, hw, hf, State.perform, hnone]
    exact ha

theorem isEven_after (h : m.state.IsEven) (hj : ∀ a ∈ m.jumps ops, 2 ∣ a.toNat) :
    (m.after ops).state.IsEven := by
  induction ops generalizing m with
  | nil => exact h
  | cons op ops ih =>
    rw [jumps_cons, List.forall_mem_append] at hj
    exact ih (isEven_perform h fun a ha => hj.1 a (Option.mem_toList.2 ha)) hj.2

/-- **The program counter becomes odd only by a jump to an odd place.** If every jump and every
call of a new machine that has succeeded had an even target, then the program counter and all slots
of the call stack have been even after every operation, those that failed and those of whole
sessions included. -/
theorem even_of_even_jumps (random : RandomSource) (calls : List Call) :
    let m := new random
    m.afterCalls calls = m.after (m.history calls) ∧
      ((∀ a ∈ m.jumps (m.history calls), 2 ∣ a.toNat) →
        ∀ ops, ops <+: m.history calls →
          let s := (m.after ops).state
          2 ∣ s.pc.toNat ∧ ∀ k, 2 ∣ (s.stack.slots.get k).toNat) := by
  intro m
  refine ⟨afterCalls_eq_after, fun hj ops hops => ?_⟩
  obtain ⟨later, hlater⟩ := hops
  have hearlier : ∀ a ∈ m.jumps ops, 2 ∣ a.toNat := by
    intro a ha
    refine hj a ?_
    rw [← hlater, jumps, along_append]
    exact List.mem_append_left _ ha
  have h := isEven_after (State.IsEven.initial random) hearlier
  exact ⟨h.pc, h.slot⟩

/-- A program that calls the place behind its first instruction, where there is no other one. -/
theorem wordAt_load_call :
    (Memory.initial.load [0x22, 0x02]).wordAt 0x200 = 0x2202 ∧
      (Memory.initial.load [0x22, 0x02]).wordAt 0x202 = 0x0000 := by
  have h (j : Nat) (hj : 0x200 + j < 0x1000) := Memory.get_load_initial [0x22, 0x02] hj
  constructor
  · exact congr (congrArg Word.ofBytes (h 0 (by decide))) (h 1 (by decide))
  · exact congr (congrArg Word.ofBytes (h 2 (by decide))) (h 3 (by decide))

theorem even_of_even_jumps_of_call :
    let calls : List Call := [.single (.load [0x22, 0x02]), .single .step, .single .step]
    (new (.ofList [])).jumps ((new (.ofList [])).history calls) = [0x202] ∧
      ((new (.ofList [])).afterCalls calls).state.stack.depth = 1 ∧
      2 ∣ ((new (.ofList [])).afterCalls calls).state.pc.toNat := by
  intro calls
  obtain ⟨hfirst, hsecond⟩ := wordAt_load_call
  have hload : (new (.ofList [])).load [0x22, 0x02] = _ := load_new (.ofList []) (by decide)
  generalize Memory.initial.load [0x22, 0x02] = memory at *
  let loaded : Machine :=
    { new (.ofList []) with state := { State.initial (.ofList []) with memory := memory } }
  have hloaded : ((new (.ofList [])).perform (.load [0x22, 0x02])).state = loaded := by
    rw [perform, hload]
    rfl
  let called : Machine := (loaded.perform .step).state
  have hcall : loaded.wordOf? .step = some 0x2202 := congrArg some hfirst
  have hcalled := perform_of_wordOf?_some hcall
  have hstate : called.state = (loaded.state.perform 0x2202 0x2202).state := by
    change (loaded.perform .step).state.state = _
    rw [hcalled]
    rfl
  have hnone : called.wordOf? .step = some 0x0000 := by
    change (loaded.perform .step).state.wordOf? .step = _
    rw [hcalled]
    exact congrArg some hsecond
  have hfails := perform_of_wordOf?_some hnone
  have hjumps : (new (.ofList [])).jumps ((new (.ofList [])).history calls) = [0x202] := by
    have htarget : loaded.jumpOf? .step = some 0x202 := by
      rw [jumpOf?, hcall, hcalled]
      rfl
    have hfault : called.jumpOf? .step = none := by
      rw [jumpOf?, hnone, hfails]
      rfl
    change (new (.ofList [])).jumps [.load [0x22, 0x02], .step, .step] = _
    rw [jumps_cons, jumps_cons, jumps_cons, hloaded, htarget, hfault]
    rfl
  have hafter : (new (.ofList [])).afterCalls calls = (called.perform .step).state := by
    change (((new (.ofList [])).perform _).state.perform .step).state.step.state = _
    rw [hloaded]
    rfl
  obtain ⟨heq, heven⟩ := even_of_even_jumps (.ofList []) calls
  rw [hjumps] at heven
  obtain ⟨hpc, -⟩ := heven (List.forall_mem_singleton.2 (by decide)) _ List.prefix_rfl
  refine ⟨hjumps, ?_, heq ▸ hpc⟩
  rw [hafter, hfails, hstate]
  rfl

end Machine

end ChipEight
