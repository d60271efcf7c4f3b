import ChipEight.Proofs.Effects
import ChipEight.Proofs.Rounds
import Mathlib.Data.List.GetD

/-!
# The invariant of the machine

Whatever is done to a machine, its program counter and all its return addresses name places in
memory, and the reserved part of its memory holds the font and zeros. The three support each
other: the program counter returns from the slots of the call stack, and the font stays because
addresses are taken round the end of memory before a store looks at them.

* `State.WellFormed` : the invariant;
* `State.WellFormed.execute` : every instruction keeps it, also one that fails;
* `Machine.WellFormed.perform` : so does every operation;
* `Machine.bounds_of_calls` : what it says of a machine after any calls.
-/

namespace ChipEight

namespace State

/-- The program counter and the return addresses are addresses, and the reserved bytes are as in
a new memory. -/
structure WellFormed (s : State) : Prop where
  /-- The program counter names a place in memory. -/
  pc_lt : s.pc.toNat < 0x1000
  /-- So does every slot of the call stack, in use or not. -/
  slot_lt : ∀ k, (s.stack.slots.get k).toNat < 0x1000
  /-- The reserved bytes are untouched. -/
  reserved : ∀ a, Memory.isReserved a = true → s.memory.get a = Memory.initial.get a

namespace WellFormed

variable {s t : State}

theorem initial (random : RandomSource) : (State.initial random).WellFormed where
  pc_lt := by
    change (programStart.setWidth 16 : Word).toNat < 0x1000
    decide
  slot_lt k := by
    change (CallStack.empty.slots.get k).toNat < 0x1000
    rw [CallStack.empty, Bank.get_replicate]
    decide
  reserved _ _ := rfl

theorem of_eq (h : s.WellFormed) (hpc : t.pc = s.pc) (hstack : t.stack = s.stack)
    (hmem : ∀ a, Memory.isReserved a = true → t.memory.get a = s.memory.get a) :
    t.WellFormed where
  pc_lt := hpc ▸ h.pc_lt
  slot_lt := hstack ▸ h.slot_lt
  reserved a ha := (hmem a ha).trans (h.reserved a ha)

/-! ### Instructions -/

theorem advance (h : s.WellFormed) : s.advance.WellFormed where
  pc_lt := by
    change ((s.pc + 2).address.setWidth 16 : Word).toNat < 0x1000
    rw [Word.toNat_address]
    omega
  slot_lt := h.slot_lt
  reserved := h.reserved

theorem jump (h : s.WellFormed) (target : Word) : (s.jump target).state.WellFormed := by
  cases ht : isProgramAddress target with
  | true =>
    rw [jump_of_isProgramAddress ht]
    exact ⟨(isProgramAddress_iff.1 ht).2, h.slot_lt, h.reserved⟩
  | false =>
    rw [jump_of_not_isProgramAddress ht]
    exact h

theorem push (h : s.WellFormed) {stack : CallStack} (hp : s.stack.push? s.pc = some stack) :
    ({ s with stack := stack } : State).WellFormed where
  pc_lt := h.pc_lt
  slot_lt := CallStack.forall_slot_of_push? (P := fun w => w.toNat < 0x1000) hp h.slot_lt h.pc_lt
  reserved := h.reserved

theorem pop (h : s.WellFormed) {pc : Word} {stack : CallStack}
    (hp : s.stack.pop? = some (pc, stack)) :
    ({ s with pc := pc, stack := stack } : State).WellFormed := by
  obtain ⟨-, rfl, hslots⟩ := CallStack.pop?_eq_some hp
  refine ⟨h.slot_lt _, fun k => ?_, h.reserved⟩
  change (stack.slots.get k).toNat < 0x1000
  rw [hslots]
  exact h.slot_lt k

/-- Every instruction keeps the invariant, whether it fails or not. -/
theorem execute (h : s.WellFormed) (i : Instruction) (op : Word) :
    (i.execute op s).state.WellFormed := by
  cases ht : i.isTransfer with
  | false =>
    obtain ⟨hpc, hstack⟩ := Instruction.execute_of_not_isTransfer op s ht
    refine h.of_eq hpc hstack fun a ha => ?_
    rw [Instruction.execute_memory, Memory.get_storeAll_of_isReserved _ _ ha]
  | true =>
    -- the reserved bytes are not in question here: transfers store nothing
    cases i with
    | ret =>
      cases hp : s.stack.pop? with
      | none =>
        rw [Instruction.execute, pop_of_none hp]
        exact h
      | some p =>
        rw [Instruction.execute, pop_of_some hp]
        exact h.pop hp
    | jump nnn => exact h.jump _
    | call nnn =>
      cases hp : s.stack.push? s.pc with
      | none =>
        rw [Instruction.execute_call_of_none op hp]
        exact h
      | some stack =>
        rw [Instruction.execute_call_of_some op hp]
        exact (h.push hp).jump _
    | skip c =>
      rw [Instruction.execute]
      split
      · exact h.advance
      · exact h
    | jumpOffset nnn => exact h.jump _
    | _ => cases ht

theorem step (h : s.WellFormed) : s.step.state.WellFormed := by
  cases hm : s.mode with
  | running =>
    rw [step_of_running hm]
    exact h.advance.execute _ _
  | waiting x =>
    rw [step_of_waiting hm]
    exact h

/-! ### The reserved bytes -/

theorem read_font (h : s.WellFormed) : s.memory.read 0 font.length = font := by
  calc s.memory.read 0 font.length
      = Memory.initial.read 0 font.length := by
        refine List.map_congr_left fun k hk => h.reserved _ (Memory.isReserved_iff.2 ?_)
        have hk : k < 80 := List.mem_range.1 hk
        simp only [BitVec.ofNat_eq_ofNat, BitVec.zero_add, BitVec.toNat_ofNat]
        omega
    _ = font := Memory.read_initial

theorem get_eq_zero (h : s.WellFormed) {a : Address} (hfont : 0x50 ≤ a.toNat)
    (ha : a.toNat < 0x200) : s.memory.get a = 0 := by
  rw [h.reserved a (Memory.isReserved_iff.2 ha), Memory.get_initial]
  exact List.getD_eq_default _ _ hfont

end WellFormed

end State

namespace Machine

/-- The invariant of a machine is that of its state. -/
def WellFormed (m : Machine) : Prop := m.state.WellFormed

variable {m : Machine}

theorem WellFormed.of_eq {t : State} {p : Keypad} (h : m.WellFormed) (hpc : t.pc = m.state.pc)
    (hstack : t.stack = m.state.stack)
    (hmem : ∀ a, Memory.isReserved a = true → t.memory.get a = m.state.memory.get a) :
    (Machine.mk t p).WellFormed :=
  State.WellFormed.of_eq h hpc hstack hmem

/-! ### Operations -/

theorem WellFormed.load (h : m.WellFormed) (rom : List Byte) : (m.load rom).state.WellFormed := by
  rw [Machine.load]
  split
  · exact h
  · exact h.of_eq rfl rfl fun a ha => Memory.get_load_of_isReserved _ rom ha

theorem WellFormed.check (h : m.WellFormed) : m.check.state.WellFormed := by
  rw [Machine.check]
  split
  · exact h.of_eq rfl rfl fun _ _ => rfl
  · exact h

/-- Every operation keeps the invariant, whether it fails or not. -/
theorem WellFormed.perform (h : m.WellFormed) (op : Operation) :
    (m.perform op).state.WellFormed := by
  cases op with
  | load rom => exact h.load rom
  | loadFrom reads =>
    rw [Machine.perform, Machine.loadFrom]
    split
    · exact h.load _
    · exact h
  | step => exact State.WellFormed.step h
  | key edit => exact h.of_eq rfl rfl fun _ _ => rfl
  | check => exact h.check
  | tick => exact h.of_eq rfl rfl fun _ _ => rfl

theorem wellFormed_after (random : RandomSource) (ops : List Operation) :
    ((new random).after ops).WellFormed :=
  after_invariant (State.WellFormed.initial random) (fun _ op h => h.perform op) ops

/-- **The machine keeps within its bounds**, whatever is called of it and whatever its program
does: the program counter and all slots of the call stack are addresses, no more slots than there
are are in use, a key wait is for a register that there is, and the reserved bytes are the font
and zeros. -/
theorem bounds_of_calls (random : RandomSource) (calls : List Call) :
    let s := ((new random).afterCalls calls).state
    s.pc.toNat < 0x1000 ∧ s.stack.depth ≤ 16 ∧
      (∀ k, (s.stack.slots.get k).toNat < 0x1000) ∧
      (∀ r, s.mode = .waiting r → r.toNat ≤ 15) ∧
      s.memory.read 0 0x50 = font ∧
      ∀ a : Address, 0x50 ≤ a.toNat → a.toNat < 0x200 → s.memory.get a = 0 := by
  intro s
  have h : s.WellFormed := by
    change ((new random).afterCalls calls).WellFormed
    rw [afterCalls_eq_after]
    exact wellFormed_after random _
  refine ⟨h.pc_lt, s.stack.depth_le, h.slot_lt, fun r _ => ?_, h.read_font, fun a => h.get_eq_zero⟩
  exact Nat.le_of_lt_succ r.isLt

end Machine

end ChipEight
