import ChipEight.Machine
import ChipEight.Proofs.BlockTransfer
import ChipEight.Proofs.InstructionSet

/-!
# What a word may change

Each part of the state has its own few words that can change it, and no other word does, whether it
succeeds or fails. Only two kinds of words store, and only at so many places behind the index
register; a return changes the number of slots in use, but no slot; a block transfer does not move
the index register. The program counter alone is changed by every word.

* `Word.MayWrite` : the registers that a word may change;
* `State.MayStore` : the places where it may store;
* `State.WritesWithin` : for each part of the state, the words that may change it;
* `Memory.get_storeAll_cells_eq_or`, `CallStack.slots_of_push?`, `Arith.registers_apply` : what
  storing, calling and computing write;
* `Instruction.writesWithin_execute` : every instruction keeps to this;
* `Machine.write_sets` : the result.
-/

namespace ChipEight

/-- Whether a word is one of those that may change register `r`. -/
def Word.MayWrite (w : Word) (r : Digit) : Prop :=
  r = w.x ∧ (w.family ∈ [0x6, 0x7, 0xC] ∨
      w.family = 0x8 ∧ w.n ∈ [0x0, 0x1, 0x2, 0x3, 0x4, 0x5, 0x6, 0x7, 0xE] ∨
      w.family = 0xF ∧ w.kk = 0x07) ∨
    r ≤ w.x ∧ w.family = 0xF ∧ w.kk = 0x65 ∨
    r = 0xF ∧ (w.family = 0x8 ∧ w.n ∈ [0x4, 0x5, 0x6, 0x7, 0xE] ∨ w.family = 0xD)

namespace State

/-- Whether a word may store at a place: it stores decimal digits or registers, the place is as far
behind the index register as one of them, and it is not reserved. -/
def MayStore (s : State) (w : Word) (a : Address) : Prop :=
  0x200 ≤ a.toNat ∧ ∃ j, a.toNat = (s.index.toNat + j) % 0x1000 ∧
    (w.family = 0xF ∧ w.kk = 0x33 ∧ j ≤ 2 ∨ w.family = 0xF ∧ w.kk = 0x55 ∧ j ≤ w.x.toNat)

/-- A word leads from one state to another and changes nothing, except for the program counter, that
is not its to change. -/
structure WritesWithin (s : State) (w : Word) (t : State) : Prop where
  /-- Stores change memory. -/
  memory : ∀ a, t.memory.get a = s.memory.get a ∨ s.MayStore w a := by exact fun _ => .inl rfl
  /-- Clearing and drawing change the frame. -/
  frame : t.frame = s.frame ∨ w = 0x00E0 ∨ w.family = 0xD := by exact .inl rfl
  /-- Three words move the index register. -/
  index : t.index = s.index ∨ w.family = 0xA ∨ w.family = 0xF ∧ w.kk ∈ [0x1E, 0x29] := by
    exact .inl rfl
  /-- One word sets the delay timer. -/
  delay : t.timers.delay = s.timers.delay ∨ w.family = 0xF ∧ w.kk = 0x15 := by exact .inl rfl
  /-- Another one sets the sound timer. -/
  sound : t.timers.sound = s.timers.sound ∨ w.family = 0xF ∧ w.kk = 0x18 := by exact .inl rfl
  /-- Calls and returns change the number of slots in use. -/
  depth : t.stack.depth = s.stack.depth ∨ w.family = 0x2 ∨ w = 0x00EE := by exact .inl rfl
  /-- Calls change the first slot that is free. -/
  slots : ∀ k, t.stack.slots.get k = s.stack.slots.get k ∨
    w.family = 0x2 ∧ k.toNat = s.stack.depth := by exact fun _ => .inl rfl
  /-- One word starts a key wait. -/
  mode : t.mode = s.mode ∨ w.family = 0xF ∧ w.kk = 0x0A := by exact .inl rfl
  /-- One word takes a random number. -/
  random : t.random = s.random ∨ w.family = 0xC := by exact .inl rfl
  /-- No word changes the keypad. -/
  keypad : t.keypad = s.keypad := by rfl
  /-- Registers change as the word says. -/
  registers : ∀ r, t.registers.get r = s.registers.get r ∨ w.MayWrite r := by
    exact fun _ => .inl rfl

variable {s t : State} {w : Word}

theorem WritesWithin.refl (s : State) (w : Word) : s.WritesWithin w s := {}

theorem WritesWithin.jump (h : s.WritesWithin w t) (target : Word) :
    s.WritesWithin w (t.jump target).state := by
  cases ht : isProgramAddress target with
  | true =>
    rw [jump_of_isProgramAddress ht]
    exact { h with }
  | false =>
    rw [jump_of_not_isProgramAddress ht]
    exact h

end State

/-! ### What storing, calling and computing write -/

/-- A list of bytes is stored at so many places behind the index register as there are bytes. -/
theorem Memory.get_storeAll_cells_eq_or (m : Memory) (index : Word) (a : Address)
    {bytes : List Byte} (h : bytes.length ≤ 0x1000) :
    (m.storeAll (cells index.address bytes)).get a = m.get a ∨
      0x200 ≤ a.toNat ∧ ∃ j < bytes.length, a.toNat = (index.toNat + j) % 0x1000 := by
  by_cases hj : ∃ j < bytes.length, a.toNat = (index.toNat + j) % 0x1000
  · obtain ⟨j, hj, ha⟩ := hj
    rw [get_storeAll_cells_of_eq m h (List.getElem?_eq_getElem hj) ha]
    by_cases hge : 0x200 ≤ a.toNat
    · exact .inr ⟨hge, j, hj, ha⟩
    · exact .inl (if_neg hge)
  · exact .inl (get_storeAll_cells_of_ne m h fun j hlt ha => hj ⟨j, hlt, ha⟩)

theorem CallStack.slots_of_push? {s t : CallStack} {w : Word} (h : s.push? w = some t)
    (k : BitVec 4) : t.slots.get k = s.slots.get k ∨ k.toNat = s.depth := by
  obtain ⟨hd, hslots, -⟩ := push?_eq_some h
  rw [hslots]
  refine (Bank.get_set_eq_or _ _ k w).imp id ?_
  rintro rfl
  rw [slot, BitVec.toNat_ofNat]
  exact Nat.mod_eq_of_lt hd

/-- A function of two registers writes its result, and its flag if it has one. -/
theorem Arith.registers_apply (f : Arith) (x y : Digit) (s : State) (r : Digit) :
    (f.apply x y s).registers.get r = s.registers.get r ∨ r = x ∨
      r = flagRegister ∧ f.toDigit ∈ [0x4, 0x5, 0x6, 0x7, 0xE] := by
  rw [apply]
  cases hflag : f.flag? (s.registers.get x) (s.registers.get y) with
  | none => exact (Bank.get_set_eq_or _ x r _).imp id .inl
  | some b =>
    have hdigit : f.toDigit ∈ [0x4, 0x5, 0x6, 0x7, 0xE] := by
      cases f with
      | copy | or | and | xor => cases hflag
      | _ => decide
    -- the flag is written into what the result has been written into
    rcases Bank.get_set_eq_or _ flagRegister r (Byte.ofBool b) with hr | hr
    · exact (Bank.get_set_eq_or _ x r _).imp hr.trans .inl
    · exact .inr (.inr ⟨hr, hdigit⟩)

/-! ### The words of instructions -/

namespace Word

variable {f x y n r : Digit} {b : Byte}

theorem kind_ofByte (f d : Digit) (b : Byte) :
    (ofByte f d b).family = f ∧ (ofByte f d b).kk = b :=
  ⟨family_ofByte f d b, kk_ofByte f d b⟩

theorem mayWrite_ofByte (h : f ∈ [0x6, 0x7, 0xC] ∨ f = 0xF ∧ b = 0x07) (hr : r = x) :
    (ofByte f x b).MayWrite r := by
  refine .inl ⟨hr.trans (x_ofByte f x b).symm, ?_⟩
  rw [family_ofByte, kk_ofByte]
  exact h.imp id .inr

theorem mayWrite_arith (f : Arith)
    (h : r = x ∨ r = flagRegister ∧ f.toDigit ∈ [0x4, 0x5, 0x6, 0x7, 0xE]) :
    (ofDigits 0x8 x y f.toDigit).MayWrite r := by
  have hdigit : f.toDigit ∈ [0x0, 0x1, 0x2, 0x3, 0x4, 0x5, 0x6, 0x7, 0xE] := by
    cases f with
    | _ => decide
  rcases h with hr | ⟨hr, hflag⟩
  · refine .inl ⟨hr.trans (x_ofDigits ..).symm, .inr (.inl ?_)⟩
    rw [family_ofDigits, n_ofDigits]
    exact ⟨rfl, hdigit⟩
  · refine .inr (.inr ⟨hr, .inl ?_⟩)
    rw [family_ofDigits, n_ofDigits]
    exact ⟨rfl, hflag⟩

end Word

namespace Instruction

open State

/-- Every instruction keeps to the write sets of its word. -/
theorem writesWithin_execute (i : Instruction) (op : Word) (s : State) :
    s.WritesWithin i.encode (i.execute op s.advance).state := by
  cases i with
  | clear => exact { frame := .inr (.inl rfl) }
  | sys | unknown => exact {}
  | ret =>
    cases hp : s.advance.stack.pop? with
    | none =>
      rw [execute, pop_of_none hp]
      exact {}
    | some p =>
      obtain ⟨-, -, hslots⟩ := CallStack.pop?_eq_some hp
      rw [execute, pop_of_some hp]
      exact
        { depth := .inr (.inr rfl)
          slots := fun k => .inl (congrArg (Bank.get · k) hslots) }
  | jump nnn => exact WritesWithin.jump (t := s.advance) {} _
  | call nnn =>
    have hf : (call nnn).encode.family = 0x2 := Word.family_ofAddress ..
    cases hp : s.advance.stack.push? s.advance.pc with
    | none =>
      rw [execute_call_of_none op hp]
      exact {}
    | some stack =>
      rw [execute_call_of_some op hp]
      -- the slot is taken even if the jump fails then
      refine WritesWithin.jump ?_ _
      exact
        { depth := .inr (.inl hf)
          slots := fun k => (CallStack.slots_of_push? hp k).imp id fun hk => ⟨hf, hk⟩ }
  | skip c =>
    rw [execute, Outcome.state_done]
    split
    · exact {}
    · exact {}
  | jumpOffset nnn => exact WritesWithin.jump (t := s.advance) {} _
  | loadByte x kk | addByte x kk =>
    exact
      { registers := fun r =>
          (Bank.get_set_eq_or _ x r _).imp id (Word.mayWrite_ofByte (.inl (by decide))) }
  | random x kk =>
    exact
      { random := .inr (Word.family_ofByte ..)
        registers := fun r =>
          (Bank.get_set_eq_or _ x r _).imp id (Word.mayWrite_ofByte (.inl (by decide))) }
  | arith f x y =>
    obtain ⟨registers, hs⟩ := apply_eq_update s.advance f x y
    have hregisters (r : Digit) := f.registers_apply x y s.advance r
    rw [hs] at hregisters
    rw [execute, hs]
    exact { registers := fun r => (hregisters r).imp id (Word.mayWrite_arith f) }
  | loadIndex nnn => exact { index := .inr (.inl (Word.family_ofAddress ..)) }
  | draw x y n =>
    have hf : (draw x y n).encode.family = 0xD := Word.family_ofDigits ..
    exact
      { frame := .inr (.inr hf)
        registers := fun r =>
          (Bank.get_set_eq_or _ flagRegister r _).imp id fun hr => .inr (.inr ⟨hr, .inr hf⟩) }
  | readDelay x =>
    exact
      { registers := fun r =>
          (Bank.get_set_eq_or _ x r _).imp id (Word.mayWrite_ofByte (.inr ⟨rfl, rfl⟩)) }
  | awaitKey x => exact { mode := .inr (Word.kind_ofByte ..) }
  | setDelay x => exact { delay := .inr (Word.kind_ofByte ..) }
  | setSound x => exact { sound := .inr (Word.kind_ofByte ..) }
  | addIndex x => exact { index := .inr (.inr ⟨Word.family_ofByte .., by simp [encode]⟩) }
  | pointGlyph x => exact { index := .inr (.inr ⟨Word.family_ofByte .., by simp [encode]⟩) }
  | storeDecimal x =>
    obtain ⟨hf, hk⟩ := Word.kind_ofByte 0xF x 0x33
    have hlen : (Byte.decimalDigits (s.registers.get x)).length ≤ 3 := Nat.le_refl 3
    refine
      { memory := fun a =>
          (Memory.get_storeAll_cells_eq_or _ _ a (Nat.le_trans hlen (by decide))).imp id ?_ }
    rintro ⟨hge, j, hj, ha⟩
    exact ⟨hge, j, ha, .inl ⟨hf, hk, by omega⟩⟩
  | storeRegisters x =>
    obtain ⟨hf, hk⟩ := Word.kind_ofByte 0xF x 0x55
    have hx : (storeRegisters x).encode.x = x := Word.x_ofByte ..
    have hlen : (s.registers.toList.take (x.toNat + 1)).length ≤ x.toNat + 1 :=
      List.length_take_le ..
    have hmax : x.toNat + 1 ≤ 0x1000 := Nat.le_trans x.isLt (by decide)
    refine
      { memory := fun a =>
          (Memory.get_storeAll_cells_eq_or _ _ a (Nat.le_trans hlen hmax)).imp id ?_ }
    rintro ⟨hge, j, hj, ha⟩
    refine ⟨hge, j, ha, .inr ⟨hf, hk, ?_⟩⟩
    rw [hx]
    omega
  | loadRegisters x =>
    obtain ⟨registers, hs⟩ := s.advance.loadRegisters_eq_update x
    have hregisters (r : Digit) : registers.get r = s.registers.get r ∨ r ≤ x := by
      have hr : (s.advance.loadRegisters x).registers.get r = registers.get r := by rw [hs]
      rw [← hr, State.loadRegisters, Bank.get_ofFn]
      by_cases hle : r ≤ x
      · exact .inr hle
      · exact .inl (if_neg hle)
    obtain ⟨hf, hk⟩ := Word.kind_ofByte 0xF x 0x65
    have hx : (loadRegisters x).encode.x = x := Word.x_ofByte ..
    rw [execute, hs]
    exact
      { registers := fun r =>
          (hregisters r).imp id fun hle => .inr (.inl ⟨hx.symm ▸ hle, hf, hk⟩) }

end Instruction

namespace Machine

/-- **What a word may change.** Executing a word changes only what is the word's to change, whether
it succeeds or fails. A step of the machine is no exception, and leaves alone what is remembered
from the last check of a key wait. -/
theorem write_sets (m : Machine) (w op : Word) :
    m.state.WritesWithin w (m.state.perform w op).state ∧
      m.state.WritesWithin m.state.fetch m.step.state.state ∧
      m.step.state.checked = m.checked := by
  have hperform (w op : Word) : m.state.WritesWithin w (m.state.perform w op).state := by
    have h := (Instruction.decode w).writesWithin_execute op m.state
    rwa [Instruction.encode_decode] at h
  refine ⟨hperform w op, ?_, rfl⟩
  cases hm : m.state.mode with
  | running =>
    rw [step, State.step_of_running hm]
    exact hperform m.state.fetch m.state.fetch
  | waiting x =>
    rw [step, State.step_of_waiting hm]
    exact .refl m.state _

end Machine

end ChipEight
