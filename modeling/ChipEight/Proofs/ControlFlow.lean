import ChipEight.Machine
import ChipEight.Proofs.Faults

/-!
# Where the processor goes on

An instruction is two bytes long, so the processor goes on two bytes further, or four if the
instruction is a skip whose condition holds; it goes on somewhere else after a jump, a call or a
return. All places are taken round the end of memory, the one of the instruction's second byte
too. Which of these cases it is can be told from the fields of the word, the registers, the keypad
and the call stack.

* `State.Skips`, `State.successor` : the place where the processor goes on;
* `State.skips_iff` : the words of skips, by their fields and as conditions;
* `State.successor_of_ne` : a word that is no jump, call or return;
* `State.toNat_pc_perform`, `State.pc_perform_ge` : what a word that succeeds does to the program
  counter;
* `Machine.step_successor` : the result, for a step of the machine.
-/

namespace ChipEight

namespace State

/-- Whether the word `w` is a skip whose condition holds. A register names the key of its low
digit. -/
def Skips (s : State) (w : Word) : Prop :=
  w.family = 0x3 ∧ s.registers.get w.x = w.kk ∨
    w.family = 0x4 ∧ s.registers.get w.x ≠ w.kk ∨
    w.family = 0x5 ∧ w.n = 0x0 ∧ s.registers.get w.x = s.registers.get w.y ∨
    w.family = 0x9 ∧ w.n = 0x0 ∧ s.registers.get w.x ≠ s.registers.get w.y ∨
    w.family = 0xE ∧ w.kk = 0x9E ∧
      s.keypad.bits.getLsbD ((s.registers.get w.x).toNat % 16) = true ∨
    w.family = 0xE ∧ w.kk = 0xA1 ∧
      s.keypad.bits.getLsbD ((s.registers.get w.x).toNat % 16) = false

instance (s : State) (w : Word) : Decidable (s.Skips w) := by
  unfold Skips
  infer_instance

/-- The place where the processor goes on when the word `w` has succeeded. -/
def successor (s : State) (w : Word) : Nat :=
  if w.family = 0x1 ∨ w.family = 0x2 then w.nnn.toNat
  else if w.family = 0xB then ((s.registers.get 0).toNat + w.nnn.toNat) % 0x1000
  else if w = 0x00EE then (s.stack.slots.get (CallStack.slot (s.stack.depth - 1))).toNat
  else if s.Skips w then (s.pc.toNat + 4) % 0x1000
  else (s.pc.toNat + 2) % 0x1000

variable {s : State} {w op : Word}

/-! ### Skips -/

theorem isDown_iff (p : Keypad) (v : Byte) : p.isDown v = p.bits.getLsbD (v.toNat % 16) := by
  rw [Keypad.isDown, Keypad.holds, Keypad.keyOf, BitVec.toNat_setWidth]

theorem skips_iff : s.Skips w ↔ ∃ c, Instruction.decode w = .skip c ∧ c.holds s = true := by
  constructor
  · rintro (⟨hf, h⟩ | ⟨hf, h⟩ | ⟨hf, hn, h⟩ | ⟨hf, hn, h⟩ | ⟨hf, hk, h⟩ | ⟨hf, hk, h⟩)
    · exact ⟨.byteIs w.x w.kk, by simp [Instruction.decode, hf], by simp [Condition.holds, h]⟩
    · exact ⟨.byteIsNot w.x w.kk, by simp [Instruction.decode, hf], by simp [Condition.holds, h]⟩
    · exact ⟨.same w.x w.y, by simp [Instruction.decode, hf, hn], by simp [Condition.holds, h]⟩
    · exact ⟨.differ w.x w.y, by simp [Instruction.decode, hf, hn], by simp [Condition.holds, h]⟩
    · refine ⟨.keyDown w.x, by simp [Instruction.decode, Instruction.decodeKey, hf, hk], ?_⟩
      rw [Condition.holds, isDown_iff, h]
    · refine ⟨.keyUp w.x, by simp [Instruction.decode, Instruction.decodeKey, hf, hk], ?_⟩
      rw [Condition.holds, isDown_iff, h]
      rfl
  · rintro ⟨c, hc, h⟩
    rw [← Instruction.encode_decode w, hc]
    cases c with
    | _ => simpa [Skips, Instruction.encode, Condition.encode, Condition.holds, isDown_iff] using h

/-! ### The place after a word -/

theorem successor_of_jump (h : w.family = 0x1 ∨ w.family = 0x2) :
    s.successor w = w.nnn.toNat :=
  if_pos h

theorem successor_of_jumpOffset (h : w.family = 0xB) :
    s.successor w = ((s.registers.get 0).toNat + w.nnn.toNat) % 0x1000 := by
  simp [successor, h]

theorem successor_ret :
    s.successor 0x00EE = (s.stack.slots.get (CallStack.slot (s.stack.depth - 1))).toNat :=
  rfl

/-- A word that is no jump, call or return goes on behind itself, or skips. -/
theorem successor_of_ne (hj : ¬ (w.family = 0x1 ∨ w.family = 0x2)) (ho : w.family ≠ 0xB)
    (hr : w ≠ 0x00EE) :
    s.successor w = if s.Skips w then (s.pc.toNat + 4) % 0x1000 else (s.pc.toNat + 2) % 0x1000 := by
  rw [successor, if_neg hj, if_neg ho, if_neg hr]

/-- What the word of an instruction looks like that is neither a jump nor a call nor a return. -/
theorem family_ne_of_decode {i : Instruction} (hi : Instruction.decode w = i)
    (h : i.isTransfer = false ∨ ∃ c, i = .skip c) :
    ¬ (w.family = 0x1 ∨ w.family = 0x2) ∧ w.family ≠ 0xB ∧ w ≠ 0x00EE := by
  have hne {j : Instruction} (hj : Instruction.decode w = j) (ht : j.isTransfer = true)
      (hs : ∀ c, j ≠ .skip c) : False := by
    rw [hi] at hj
    subst hj
    rcases h with h | ⟨c, hc⟩
    · rw [h] at ht
      cases ht
    · exact hs c hc
  refine ⟨?_, ?_, ?_⟩
  · rintro (hf | hf)
    · exact hne (Instruction.decode_of_jump hf) rfl nofun
    · exact hne (Instruction.decode_of_call hf) rfl nofun
  · intro hf
    exact hne (Instruction.decode_of_jumpOffset hf) rfl nofun
  · rintro rfl
    exact hne Instruction.decode_ret rfl nofun

/-! ### The program counter after a word that succeeds -/

theorem toNat_pc_jump {a : Address} (h : (s.jump (a.setWidth 16)).fault = none) :
    (s.jump (a.setWidth 16)).state.pc.toNat = a.toNat ∧ 0x200 ≤ a.toNat := by
  cases ht : isProgramAddress (a.setWidth 16) with
  | true =>
    rw [jump_of_isProgramAddress ht]
    exact ⟨BitVec.toNat_setWidth_of_le (by decide), isProgramAddress_address_iff.1 ht⟩
  | false =>
    rw [jump_of_not_isProgramAddress ht] at h
    cases h

theorem pc_perform_jump (hf : w.family = 0x1) (h : (s.perform w op).fault = none) :
    (s.perform w op).state.pc.toNat = w.nnn.toNat ∧ 0x200 ≤ w.nnn.toNat := by
  rw [perform, Instruction.decode_of_jump hf] at h ⊢
  exact toNat_pc_jump h

theorem pc_perform_call (hf : w.family = 0x2) (h : (s.perform w op).fault = none) :
    (s.perform w op).state.pc.toNat = w.nnn.toNat ∧ 0x200 ≤ w.nnn.toNat := by
  rw [perform, Instruction.decode_of_call hf] at h ⊢
  cases hp : s.advance.stack.push? s.advance.pc with
  | none =>
    rw [Instruction.execute_call_of_none op hp] at h
    cases h
  | some stack =>
    rw [Instruction.execute_call_of_some op hp] at h ⊢
    exact toNat_pc_jump h

theorem pc_perform_jumpOffset (hf : w.family = 0xB) (h : (s.perform w op).fault = none) :
    (s.perform w op).state.pc.toNat = ((s.registers.get 0).toNat + w.nnn.toNat) % 0x1000 ∧
      0x200 ≤ ((s.registers.get 0).toNat + w.nnn.toNat) % 0x1000 := by
  rw [perform, Instruction.decode_of_jumpOffset hf] at h ⊢
  have htarget : (w.nnn + (s.registers.get 0).setWidth 12).toNat =
      ((s.registers.get 0).toNat + w.nnn.toNat) % 0x1000 := by
    rw [← toNat_offsetTarget, BitVec.toNat_setWidth_of_le (by decide)]
  rw [← htarget]
  exact toNat_pc_jump h

theorem pc_perform_ret (h : (s.perform 0x00EE op).fault = none) :
    (s.perform 0x00EE op).state.pc = s.stack.slots.get (CallStack.slot (s.stack.depth - 1)) := by
  rw [perform, Instruction.decode_ret, Instruction.execute] at h ⊢
  cases hp : s.advance.stack.pop? with
  | none =>
    rw [pop_of_none hp] at h
    cases h
  | some p =>
    obtain ⟨hd, hpc, -⟩ := CallStack.pop?_eq_some hp
    have hdepth : s.stack.depth = p.2.depth + 1 := hd
    rw [pop_of_some hp, hdepth, Nat.add_sub_cancel]
    exact hpc

theorem toNat_pc_perform_skip {c : Condition} (hi : Instruction.decode w = .skip c) :
    (s.perform w op).state.pc.toNat =
      if s.Skips w then (s.pc.toNat + 4) % 0x1000 else (s.pc.toNat + 2) % 0x1000 := by
  have hskips : s.Skips w ↔ c.holds s = true := by
    rw [skips_iff, hi]
    simp
  have hholds : c.holds s.advance = c.holds s := by
    cases c with
    | _ => rfl
  rw [perform, hi, Instruction.execute, hholds, Outcome.state_done]
  by_cases hc : c.holds s = true
  · rw [if_pos hc, if_pos (hskips.2 hc), toNat_advance_pc, toNat_advance_pc]
    omega
  · rw [if_neg hc, if_neg (mt hskips.1 hc), toNat_advance_pc]

theorem toNat_pc_perform (h : (s.perform w op).fault = none) :
    (s.perform w op).state.pc.toNat = s.successor w := by
  cases hi : Instruction.decode w with
  | jump nnn =>
    have hf := (Instruction.jump_of_decode hi).1
    rw [successor_of_jump (.inl hf), (pc_perform_jump hf h).1]
  | call nnn =>
    have hf := (Instruction.call_of_decode hi).1
    rw [successor_of_jump (.inr hf), (pc_perform_call hf h).1]
  | jumpOffset nnn =>
    have hf := (Instruction.jumpOffset_of_decode hi).1
    rw [successor_of_jumpOffset hf, (pc_perform_jumpOffset hf h).1]
  | ret =>
    obtain rfl := Instruction.ret_of_decode hi
    rw [successor_ret, pc_perform_ret h]
  | skip c =>
    obtain ⟨hj, ho, hr⟩ := family_ne_of_decode hi (.inr ⟨c, rfl⟩)
    rw [successor_of_ne hj ho hr, toNat_pc_perform_skip hi]
  | _ =>
    obtain ⟨hj, ho, hr⟩ := family_ne_of_decode hi (.inl rfl)
    have hskips : ¬ s.Skips w := by
      rw [skips_iff, hi]
      simp
    rw [successor_of_ne hj ho hr, if_neg hskips, perform, hi,
      (Instruction.execute_of_not_isTransfer op s.advance rfl).1, toNat_advance_pc]

/-- A jump or a call that succeeds goes to a place that programs may occupy. -/
theorem pc_perform_ge (hw : w.family = 0x1 ∨ w.family = 0x2 ∨ w.family = 0xB)
    (h : (s.perform w op).fault = none) :
    0x200 ≤ (s.perform w op).state.pc.toNat ∧ (s.perform w op).state.pc.toNat ≤ 0xFFF := by
  have hnnn := w.nnn.isLt
  rcases hw with hf | hf | hf
  · obtain ⟨hpc, hge⟩ := pc_perform_jump hf h
    omega
  · obtain ⟨hpc, hge⟩ := pc_perform_call hf h
    omega
  · obtain ⟨hpc, hge⟩ := pc_perform_jumpOffset hf h
    omega

/-! ### The word that is fetched -/

/-- The second byte of a word comes after its first one, round the end of memory. -/
theorem toNat_fetch (s : State) :
    s.fetch.toNat =
      0x100 * (s.memory.get (BitVec.ofNat 12 s.pc.toNat)).toNat +
        (s.memory.get (BitVec.ofNat 12 (s.pc.toNat + 1))).toNat := by
  rw [fetch, Memory.wordAt, Word.toNat_ofBytes, ← Word.address_add_ofNat,
    ← Nat.add_zero s.pc.toNat, ← Word.address_add_ofNat, BitVec.add_zero]
  rfl

end State

namespace Machine

/-- **Where the processor goes on.** A step of a machine that does not wait for a key executes the
word whose two bytes are at the program counter, taken round the end of memory. If it succeeds, the
processor goes on at the successor of the word, and after a jump or a call this is a place that
programs may occupy. -/
theorem step_successor (m : Machine) (h : m.state.mode = .running) :
    ∃ w : Word,
      w.toNat = 0x100 * (m.state.memory.get (BitVec.ofNat 12 m.state.pc.toNat)).toNat +
        (m.state.memory.get (BitVec.ofNat 12 (m.state.pc.toNat + 1))).toNat ∧
      m.step.fault = (m.state.perform w w).fault ∧
      m.step.state = { m with state := (m.state.perform w w).state } ∧
      (m.step.fault = none →
        m.step.state.state.pc.toNat = m.state.successor w ∧
          (w.family = 0x1 ∨ w.family = 0x2 ∨ w.family = 0xB →
            0x200 ≤ m.step.state.state.pc.toNat ∧ m.step.state.state.pc.toNat ≤ 0xFFF)) := by
  have hstep : m.step = ((m.state.perform m.state.fetch m.state.fetch).after [m.state.trace]).map
      fun s => { m with state := s } := by
    rw [step, State.step_of_running h]
  rw [hstep]
  refine ⟨m.state.fetch, m.state.toNat_fetch, rfl, rfl, fun hf => ?_⟩
  exact ⟨State.toNat_pc_perform hf, fun hw => State.pc_perform_ge hw hf⟩

/-- A machine whose next word is a skip with one byte at the end of memory and one at its beginning.
The program counter is above all addresses. -/
def atEnd : Machine where
  state :=
    { State.initial (.ofList []) with
      registers := Bank.replicate 0xF0, pc := 0xFFFF, memory := Memory.initial.set 0xFFF 0x30 }
  checked := .empty

theorem fetch_atEnd : atEnd.state.fetch = 0x30F0 := by
  have hhigh : atEnd.state.memory.get 0xFFF = 0x30 := Bank.get_set_self ..
  have hlow : atEnd.state.memory.get 0x000 = 0xF0 := by
    change (Memory.initial.set 0xFFF 0x30).get 0x000 = _
    rw [Bank.get_set_of_ne _ _ (by decide), Memory.get_initial]
    rfl
  change Word.ofBytes (atEnd.state.memory.get 0xFFF) (atEnd.state.memory.get 0x000) = _
  rw [hhigh, hlow]
  rfl

/-- The skip goes on at the fourth place. -/
theorem step_successor_over_end :
    atEnd.state.mode = .running ∧ atEnd.step.fault = none ∧
      atEnd.step.state.state.pc.toNat = atEnd.state.successor 0x30F0 ∧
      atEnd.state.successor 0x30F0 = 3 := by
  obtain ⟨w, hw, hfault, -, hpc⟩ := step_successor atEnd rfl
  have hfetch : w = 0x30F0 := by
    rw [← fetch_atEnd]
    exact BitVec.eq_of_toNat_eq (hw.trans atEnd.state.toNat_fetch.symm)
  subst hfetch
  have hnone : atEnd.step.fault = none := hfault.trans rfl
  exact ⟨rfl, hnone, (hpc hnone).1, by decide⟩

end Machine

end ChipEight
