import ChipEight.Proofs.WellFormed
import Mathlib.Tactic.IntervalCases

/-!
# Running off the end of memory

The program counter goes on from the end of memory at its beginning, in the font. Until then it
stays where programs are, and the first places of the font that it can reach are few. Read as
instructions, they fail or lead on to one that does, and none of them leads back: a program that
runs off the end of memory is stopped by a fault.

* `State.Confined` : where the program counter and the return addresses are as long as no
  instruction has failed;
* `State.Confined.step` : an instruction that succeeds keeps them there;
* `fontInstruction`, `instructionsLeft` : the font read as a program, and how many of its
  instructions can be executed until one fails;
* `State.step_in_font` : an instruction of the font fails or leaves fewer of them;
* `Machine.stopped_after_end` : the result.
-/

namespace ChipEight

/-- The beginning of the font, read as instructions at each place. -/
def fontInstruction : Nat → Instruction
  | 0 => .unknown 0xF090
  | 1 | 2 => .skip (.differ 0x0 0x9)
  | 3 => .skip (.differ 0x0 0xF)
  | 4 => .unknown 0xF020
  | 5 => .call 0x060
  | 6 => .loadByte 0x0 0x20
  | 7 => .call 0x020
  | _ => .call 0x070

/-- How many instructions can be executed from a place in the font until one has failed. -/
def instructionsLeft : Nat → Nat
  | 1 | 2 => 3
  | 3 | 6 => 2
  | _ => 1

theorem instructionsLeft_pos (k : Nat) : 0 < instructionsLeft k := by
  unfold instructionsLeft
  split <;> decide

theorem instructionsLeft_le (k : Nat) : instructionsLeft k ≤ 3 := by
  unfold instructionsLeft
  split <;> decide

theorem decode_font : ∀ k ≤ 8,
    Instruction.decode (Word.ofBytes (font.getD k 0) (font.getD (k + 1) 0)) =
      fontInstruction k := by
  decide

namespace State

variable {s : State}

/-! ### As long as nothing fails -/

/-- The program counter is where programs are or in the first bytes of the font, and every return
address in use is where programs are or one of the first two places. -/
structure Confined (s : State) : Prop where
  /-- The invariant of the machine. -/
  wellFormed : s.WellFormed
  /-- Where the program counter is. -/
  pc_range : s.pc.toNat ≤ 8 ∨ 0x200 ≤ s.pc.toNat
  /-- Where calls return to. -/
  entry_range : ∀ w ∈ s.stack.entries, w.toNat ≤ 1 ∨ 0x200 ≤ w.toNat

namespace Confined

theorem initial (random : RandomSource) : (State.initial random).Confined where
  wellFormed := .initial random
  pc_range := by
    refine .inr ?_
    change 0x200 ≤ (programStart.setWidth 16 : Word).toNat
    decide
  entry_range _ h := by cases h

theorem of_eq {t : State} (h : s.Confined) (ht : t.WellFormed) (hpc : t.pc = s.pc)
    (hstack : t.stack = s.stack) : t.Confined where
  wellFormed := ht
  pc_range := hpc ▸ h.pc_range
  entry_range := hstack ▸ h.entry_range

theorem jump (h : s.WellFormed) (he : ∀ w ∈ s.stack.entries, w.toNat ≤ 1 ∨ 0x200 ≤ w.toNat)
    {target : Word} (hf : (s.jump target).fault = none) : (s.jump target).state.Confined := by
  have hw := h.jump target
  cases ht : isProgramAddress target with
  | true =>
    rw [jump_of_isProgramAddress ht] at hw ⊢
    exact ⟨hw, .inr (isProgramAddress_iff.1 ht).1, he⟩
  | false =>
    rw [jump_of_not_isProgramAddress ht] at hf
    cases hf

/-- An instruction of a program finds the program counter where programs are, or at one of the
first two places if it is the last one in memory. -/
theorem execute {i : Instruction} {op : Word} (h : s.WellFormed)
    (hpc : s.pc.toNat ≤ 1 ∨ 0x200 ≤ s.pc.toNat)
    (he : ∀ w ∈ s.stack.entries, w.toNat ≤ 1 ∨ 0x200 ≤ w.toNat)
    (hf : (i.execute op s).fault = none) : (i.execute op s).state.Confined := by
  have hs : s.Confined := ⟨h, by omega, he⟩
  cases ht : i.isTransfer with
  | false =>
    obtain ⟨hpc', hstack⟩ := Instruction.execute_of_not_isTransfer op s ht
    exact hs.of_eq (h.execute i op) hpc' hstack
  | true =>
    cases i with
    | ret =>
      rw [Instruction.execute] at hf ⊢
      cases hp : s.stack.pop? with
      | none =>
        rw [pop_of_none hp] at hf
        cases hf
      | some p =>
        have hentries := CallStack.entries_of_pop? hp
        rw [pop_of_some hp]
        refine ⟨h.pop hp, ?_, fun w hw => he w ?_⟩
        · have : p.1 ∈ s.stack.entries := by simp [hentries]
          have := he _ this
          change p.1.toNat ≤ 8 ∨ 0x200 ≤ p.1.toNat
          omega
        · have hw : w ∈ p.2.entries := hw
          simp [hentries, hw]
    | jump nnn => exact jump h he hf
    | call nnn =>
      cases hp : s.stack.push? s.pc with
      | none =>
        rw [Instruction.execute_call_of_none op hp] at hf
        cases hf
      | some stack =>
        rw [Instruction.execute_call_of_some op hp] at hf ⊢
        refine jump (h.push hp) (fun w hw => ?_) hf
        have hw : w ∈ stack.entries := hw
        rw [CallStack.entries_of_push? hp, List.mem_append, List.mem_singleton] at hw
        rcases hw with hw | rfl
        · exact he w hw
        · exact hpc
    | skip c =>
      rw [Instruction.execute]
      split
      · refine ⟨h.advance, ?_, he⟩
        rw [Outcome.state_done, toNat_advance_pc]
        have := h.pc_lt
        omega
      · exact hs
    | jumpOffset nnn => exact jump h he hf
    | _ => cases ht

end Confined

/-! ### In the font -/

/-- What is fetched in the font does not depend on the program. -/
theorem decode_fetch (h : s.WellFormed) (hpc : s.pc.toNat ≤ 8) :
    Instruction.decode s.fetch = fontInstruction s.pc.toNat := by
  have ha : s.pc.address.toNat = s.pc.toNat := by
    rw [Word.address, BitVec.toNat_setWidth]
    omega
  have hb : (s.pc.address + 1).toNat = s.pc.toNat + 1 := by
    rw [BitVec.toNat_add, ha]
    change (s.pc.toNat + 1) % 0x1000 = _
    omega
  have hget : ∀ a : Address, a.toNat < 0x200 → s.memory.get a = font.getD a.toNat 0 :=
    fun a ha => (h.reserved a (Memory.isReserved_iff.2 ha)).trans (Memory.get_initial a)
  rw [fetch, Memory.wordAt, hget _ (by omega), hget _ (by omega), ha, hb]
  exact decode_font _ hpc

theorem fault_call {nnn : Address} {op : Word} (h : nnn.toNat < 0x200) :
    ((Instruction.call nnn).execute op s).fault ≠ none := by
  have ht : isProgramAddress (nnn.setWidth 16) = false := by
    rw [← Bool.not_eq_true, isProgramAddress_iff, BitVec.toNat_setWidth]
    omega
  cases hp : s.stack.push? s.pc with
  | none => simp [Instruction.execute_call_of_none op hp]
  | some stack => simp [Instruction.execute_call_of_some op hp, jump_of_not_isProgramAddress ht]

/-- **Every instruction of the font fails or leaves fewer of them**: none leads back to where
programs are. -/
theorem step_in_font (h : s.WellFormed) (hm : s.mode = .running) (hpc : s.pc.toNat ≤ 8)
    (hf : s.step.fault = none) :
    s.step.state.pc.toNat ≤ 8 ∧
      instructionsLeft s.step.state.pc.toNat < instructionsLeft s.pc.toNat ∧
      s.step.state.stack = s.stack := by
  rw [step_of_running hm, Outcome.fault_after, perform, decode_fetch h hpc] at hf
  rw [step_of_running hm, Outcome.state_after, perform, decode_fetch h hpc]
  have ha := toNat_advance_pc (s := s)
  have hskip : s.advance.advance.pc.toNat = (s.advance.pc.toNat + 2) % 0x1000 :=
    toNat_advance_pc
  generalize s.fetch = op at *
  generalize s.pc.toNat = k at *
  interval_cases k
  case «0» | «4» => cases hf
  case «5» | «7» | «8» => exact absurd hf (fault_call (by decide))
  case «6» =>
    change s.advance.pc.toNat ≤ 8 ∧ instructionsLeft s.advance.pc.toNat < _ ∧ _
    rw [ha]
    exact ⟨by decide, by decide, rfl⟩
  all_goals
    -- the two outcomes of a skip
    simp only [fontInstruction, Instruction.execute]
    split
    · rw [Outcome.state_done, hskip, ha]
      exact ⟨by decide, by decide, rfl⟩
    · rw [Outcome.state_done, ha]
      exact ⟨by decide, by decide, rfl⟩

theorem step_of_jump {nnn : Address} (hm : s.mode = .running)
    (hd : Instruction.decode s.fetch = .jump nnn)
    (ht : isProgramAddress (nnn.setWidth 16) = true) :
    s.step.fault = none ∧ s.step.state = { s with pc := nnn.setWidth 16 } := by
  rw [step_of_decode hm hd, Instruction.execute, jump_of_isProgramAddress ht]
  exact ⟨rfl, rfl⟩

theorem step_of_clear (hm : s.mode = .running) (hd : Instruction.decode s.fetch = .clear) :
    s.step.fault = none ∧ s.step.state = { s.advance with frame := .blank } := by
  rw [step_of_decode hm hd]
  exact ⟨rfl, rfl⟩

/-- An instruction that succeeds keeps the state confined. -/
theorem Confined.step (h : s.Confined) (hf : s.step.fault = none) : s.step.state.Confined := by
  cases hm : s.mode with
  | waiting x =>
    rw [step_of_waiting hm]
    exact h
  | running =>
    rcases h.pc_range with hpc | hpc
    · obtain ⟨hpc', -, hstack⟩ := step_in_font h.wellFormed hm hpc hf
      exact ⟨h.wellFormed.step, .inl hpc', hstack ▸ h.entry_range⟩
    · rw [step_of_running hm] at hf ⊢
      refine Confined.execute h.wellFormed.advance ?_ h.entry_range hf
      rw [toNat_advance_pc]
      have := h.wellFormed.pc_lt
      omega

end State

namespace Machine

variable {m : Machine} {ops : List Operation}

theorem confined_perform (h : m.state.Confined) {op : Operation}
    (hf : ∀ f ∈ m.executed op, f = none) : (m.perform op).state.state.Confined := by
  rcases executed_cases m op with ⟨rfl, -, he⟩ | ⟨-, hpc, hstack⟩
  · exact h.step (hf m.step.fault (by simp [he]))
  · exact h.of_eq (WellFormed.perform h.wellFormed op) hpc hstack

theorem confined_after (h : m.state.Confined) (hf : ∀ f ∈ m.executions ops, f = none) :
    (m.after ops).state.Confined := by
  induction ops generalizing m with
  | nil => exact h
  | cons op ops ih =>
    rw [executions_cons, List.forall_mem_append] at hf
    exact ih (confined_perform h hf.1) hf.2

/-- An operation on a machine that is in the font executes nothing and leaves it where it is, or
executes an instruction that fails or leaves fewer of them. -/
theorem executed_in_font (h : m.WellFormed) (hpc : m.state.pc.toNat ≤ 8) (op : Operation) :
    (m.executed op = [] ∧ (m.perform op).state.state.pc = m.state.pc) ∨
      (∃ f, m.executed op = [some f]) ∨
      (m.executed op = [none] ∧ (m.perform op).state.state.pc.toNat ≤ 8 ∧
        instructionsLeft (m.perform op).state.state.pc.toNat <
          instructionsLeft m.state.pc.toNat) := by
  rcases executed_cases m op with ⟨rfl, hm, he⟩ | ⟨he, hpc', -⟩
  · cases hf : m.step.fault with
    | some f => exact .inr (.inl ⟨f, by rw [he, hf]⟩)
    | none =>
      obtain ⟨hpc', hleft, -⟩ := State.step_in_font h hm hpc hf
      exact .inr (.inr ⟨by rw [he, hf], hpc', hleft⟩)
  · exact .inl ⟨he, hpc'⟩

/-- As long as no instruction fails, the program counter stays in the font. -/
theorem after_in_font (h : m.WellFormed) (hpc : m.state.pc.toNat ≤ 8)
    (hf : ∀ f ∈ m.executions ops, f = none) : (m.after ops).state.pc.toNat ≤ 8 := by
  induction ops generalizing m with
  | nil => exact hpc
  | cons op ops ih =>
    rw [executions_cons, List.forall_mem_append] at hf
    refine ih (h.perform op) ?_ hf.2
    rcases executed_in_font h hpc op with ⟨-, hpc'⟩ | ⟨f, he⟩ | ⟨-, hpc', -⟩
    · rwa [hpc']
    · exact absurd (hf.1 (some f) (by simp [he])) (by simp)
    · exact hpc'

/-- When as many instructions have been executed as are left in the font, one of them has
failed. -/
theorem exists_fault_in_font (h : m.WellFormed) (hpc : m.state.pc.toNat ≤ 8)
    (hn : instructionsLeft m.state.pc.toNat ≤ (m.executions ops).length) :
    ∃ k < instructionsLeft m.state.pc.toNat, ∃ f, (m.executions ops)[k]? = some (some f) := by
  induction ops generalizing m with
  | nil =>
    have := instructionsLeft_pos m.state.pc.toNat
    simp only [executions, along, List.length_nil] at hn
    omega
  | cons op ops ih =>
    rw [executions_cons] at hn ⊢
    rcases executed_in_font h hpc op with ⟨he, hpc'⟩ | ⟨f, he⟩ | ⟨he, hpc', hleft⟩
    · -- nothing is executed: the bound is passed on as it is
      rw [he, List.nil_append, ← hpc'] at hn ⊢
      exact ih (h.perform op) (by rwa [hpc']) hn
    · exact ⟨0, instructionsLeft_pos _, f, by rw [he]; rfl⟩
    · -- one instruction fewer is left, and one place later is the failure
      rw [he, List.singleton_append, List.length_cons] at hn
      obtain ⟨k, hk, f, hf⟩ := ih (h.perform op) hpc' (by omega)
      exact ⟨k + 1, by omega, f, by rw [he]; exact hf⟩

/-- **A program that runs off the end of memory is stopped by a fault.** As long as no instruction
of a new machine has failed, the program counter is where programs are or in the first bytes of
the font, and the return addresses in use are where programs are or one of the first two places.
Once it is in the font, one of the next three instructions executed fails, and before that the
program counter does not come back. -/
theorem stopped_after_end (random : RandomSource) (ops : List Operation)
    (hok : ∀ f ∈ (new random).executions ops, f = none) :
    let m := (new random).after ops
    (m.state.pc.toNat ≤ 8 ∨ 0x200 ≤ m.state.pc.toNat ∧ m.state.pc.toNat ≤ 0xFFF) ∧
      (∀ w ∈ m.state.stack.entries, w = 0 ∨ w = 1 ∨ 0x200 ≤ w.toNat ∧ w.toNat ≤ 0xFFF) ∧
      (m.state.pc.toNat ≤ 8 → ∀ later : List Operation,
        (3 ≤ (m.executions later).length →
          ∃ k < 3, ∃ f, (m.executions later)[k]? = some (some f)) ∧
        ((∀ f ∈ m.executions later, f = none) →
          (m.after later).state.pc.toNat < 0x200)) := by
  intro m
  have h : m.state.Confined := confined_after (.initial random) hok
  have hw : m.WellFormed := h.wellFormed
  refine ⟨?_, fun w hmem => ?_, fun hpc later => ⟨fun hn => ?_, fun hf => ?_⟩⟩
  · have := hw.pc_lt
    have := h.pc_range
    omega
  · obtain ⟨k, -, rfl⟩ := List.mem_map.1 hmem
    have := hw.slot_lt (CallStack.slot k)
    have := h.entry_range _ hmem
    rw [← BitVec.toNat_inj, ← BitVec.toNat_inj]
    change _ = 0 ∨ _ = 1 ∨ _
    omega
  · have hle := instructionsLeft_le m.state.pc.toNat
    obtain ⟨k, hk, f, hf⟩ := exists_fault_in_font hw hpc (hle.trans hn)
    exact ⟨k, by omega, f, hf⟩
  · have := after_in_font hw hpc hf
    omega

/-! ### A program at the end of memory -/

/-- A program that fills memory: it jumps to its last instruction, which clears the display. -/
def endRom : List Byte := 0x1F :: 0xFE :: (List.replicate 3580 0x00 ++ [0x00, 0xE0])

theorem getD_padded (n : Nat) (a b c d e : Byte) :
    ∀ x, (a :: b :: (List.replicate n c ++ [d, e])).getD 0 x = a ∧
      (a :: b :: (List.replicate n c ++ [d, e])).getD 1 x = b ∧
      (a :: b :: (List.replicate n c ++ [d, e])).getD (n + 2) x = d ∧
      (a :: b :: (List.replicate n c ++ [d, e])).getD (n + 3) x = e := by
  simp

theorem wordAt_endRom (memory : Memory) :
    (memory.load endRom).wordAt 0x200 = 0x1FFE ∧
      (memory.load endRom).wordAt 0xFFE = 0x00E0 := by
  have h := getD_padded 3580 0x1F 0xFE 0x00 0x00 0xE0
  rw [Memory.wordAt, Memory.wordAt, Memory.get_load, Memory.get_load, Memory.get_load,
    Memory.get_load]
  change Word.ofBytes (endRom.getD 0 _) (endRom.getD 1 _) = _ ∧
    Word.ofBytes (endRom.getD 3582 _) (endRom.getD 3583 _) = _
  rw [endRom, (h _).1, (h _).2.1, (h _).2.2.1, (h _).2.2.2]
  decide

theorem load_endRom :
    (m.load endRom).state.state = { m.state with memory := m.state.memory.load endRom } := by
  have h : endRom.length ≤ 3584 := by
    simp only [endRom, List.length_cons, List.length_append, List.length_replicate]
    decide
  rw [load_of_le h, Outcome.state_reported]

theorem executions_endRom (hm : m.state.mode = .running) (hpc : m.state.pc = 0x200) :
    m.executions [.load endRom, .step, .step] = [none, none] ∧
      (m.after [.load endRom, .step, .step]).state.pc = 0 := by
  obtain ⟨hjump, hclear⟩ := wordAt_endRom m.state.memory
  have hload := load_endRom (m := m)
  generalize m.state.memory.load endRom = memory at *
  have hm₁ : (m.load endRom).state.state.mode = .running := by
    rw [hload]
    exact hm
  have hd₁ : Instruction.decode (m.load endRom).state.state.fetch = .jump 0xFFE := by
    rw [hload, State.fetch, hpc]
    change Instruction.decode (memory.wordAt 0x200) = _
    rw [hjump]
    decide
  obtain ⟨hf₁, hs₁⟩ := State.step_of_jump hm₁ hd₁ (by decide)
  have hm₂ : (m.load endRom).state.state.step.state.mode = .running := by
    rw [hs₁, hload]
    exact hm
  have hd₂ : Instruction.decode (m.load endRom).state.state.step.state.fetch = .clear := by
    rw [hs₁, hload]
    change Instruction.decode (memory.wordAt 0xFFE) = _
    rw [hclear]
    decide
  obtain ⟨hf₂, hs₂⟩ := State.step_of_clear hm₂ hd₂
  have hpc₁ : (m.load endRom).state.state.step.state.pc = 0xFFE := by
    rw [hs₁]
    change ((0xFFE : Address).setWidth 16 : Word) = 0xFFE
    decide
  have hpc₂ : (m.load endRom).state.state.step.state.step.state.pc = 0 := by
    rw [hs₂]
    change (((m.load endRom).state.state.step.state.pc + 2).address.setWidth 16 : Word) = 0
    rw [hpc₁]
    decide
  simp only [executions, along, executed, wordOf?, after_cons, after_nil, perform, step,
    Outcome.fault_map, Outcome.state_map, hm₁, hm₂, hf₁, hf₂, hpc₂]
  exact ⟨rfl, trivial⟩

theorem stopped_after_end_of_endRom :
    (∀ f ∈ (new (.ofList [])).executions [.load endRom, .step, .step], f = none) ∧
      ((new (.ofList [])).after [.load endRom, .step, .step]).state.pc = 0 ∧
      ∀ later : List Operation,
        3 ≤ (((new (.ofList [])).after
          [.load endRom, .step, .step]).executions later).length →
          ∃ k < 3, ∃ f, (((new (.ofList [])).after
            [.load endRom, .step, .step]).executions later)[k]? = some (some f) := by
  obtain ⟨he, hpc⟩ := executions_endRom (m := new (.ofList [])) rfl rfl
  have hok : ∀ f ∈ (new (.ofList [])).executions [.load endRom, .step, .step], f = none := by
    simp [he]
  refine ⟨hok, hpc, fun later => ((stopped_after_end _ _ hok).2.2 ?_ later).1⟩
  rw [hpc]
  decide

end Machine

end ChipEight
