import ChipEight.Proofs.Effects
import ChipEight.Proofs.InstructionSet

/-!
# When an instruction fails

Six things can go wrong when a word is executed, and which of them does depends on the word, on
how many calls are in progress and, for a jump with an offset, on register 0. The site of the fault
is the place that the word was taken from: an instruction that fails has not moved the program
counter before. The word that stands in for the executed one in the reports has no influence on
anything else.

* `State.Fails` : what can go wrong, and the fault that tells of it;
* `State.site_advance` : the site of a fault is the place of the instruction;
* `State.leftBy`, `State.perform_of_fails` : all of this goes wrong, and what is left behind then;
* `State.fails_of_fault` : nothing else goes wrong;
* `Instruction.execute_withWord` : what the word in the reports is good for;
* `State.fault_iff_fails` : the result.
-/

namespace ChipEight

/-- The fault with another word in its report, if it tells of a word. -/
def Fault.withWord (op : Word) : Fault → Fault
  | unknownInstruction _ site => unknownInstruction op site
  | notImplemented _ site => notImplemented op site
  | f => f

namespace Word

variable {w : Word}

theorem toNat_family (w : Word) : w.family.toNat = w.toNat / 0x1000 := by
  have := w.isLt
  rw [family, BitVec.extractLsb'_toNat, Nat.shiftRight_eq_div_pow]
  omega

theorem family_eq_zero_iff : w.family = 0x0 ↔ w.toNat ≤ 0x0FFF := by
  rw [← BitVec.toNat_inj, toNat_family]
  change w.toNat / 0x1000 = 0 ↔ _
  omega

end Word

namespace State

/-- What goes wrong when the word `w` is executed, with the fault that tells of it. In reports,
`op` stands for `w`. -/
inductive Fails (s : State) (w op : Word) : Fault → Prop
  /-- A call of a native routine. -/
  | notImplemented (h : w.toNat ≤ 0x0FFF) (hc : w ≠ 0x00E0) (hr : w ≠ 0x00EE) :
      Fails s w op (.notImplemented op s.pc.address)
  /-- A word of no kind in the table of instructions. -/
  | unknown (h : ∀ e ∈ instructionTable, w &&& e.1 ≠ e.2) :
      Fails s w op (.unknownInstruction op s.pc.address)
  /-- A return with nothing to return to. -/
  | underflow (h : w = 0x00EE) (hd : s.stack.depth = 0) :
      Fails s w op (.stackUnderflow s.pc.address)
  /-- A call with no slot left, whatever its target. -/
  | overflow (h : w.family = 0x2) (hd : s.stack.depth = 16) :
      Fails s w op (.stackOverflow s.pc.address)
  /-- A jump into the reserved part of memory. -/
  | jump (h : w.family = 0x1) (ht : w.nnn.toNat < 0x200) :
      Fails s w op (.invalidJumpTarget (w.nnn.setWidth 16) s.pc.address)
  /-- A call into it, if there is a slot left. -/
  | call (h : w.family = 0x2) (hd : s.stack.depth < 16) (ht : w.nnn.toNat < 0x200) :
      Fails s w op (.invalidJumpTarget (w.nnn.setWidth 16) s.pc.address)
  /-- A jump with an offset into it; the sum is taken round the end of memory. -/
  | jumpOffset {target : Word} (h : w.family = 0xB)
      (hs : target.toNat = ((s.registers.get 0).toNat + w.nnn.toNat) % 0x1000)
      (ht : target.toNat < 0x200) : Fails s w op (.invalidJumpTarget target s.pc.address)

variable {s : State} {w op : Word} {f : Fault}

/-! ### The site of a fault -/

theorem site_advance (s : State) : s.advance.site = s.pc.address := by
  refine BitVec.eq_of_toNat_eq ?_
  change (((s.pc + 2).address.setWidth 16 - 2 : Word).setWidth 12).toNat =
    (s.pc.setWidth 12).toNat
  have h : ((s.pc + 2).address.setWidth 16 : Word).toNat = (s.pc + 2 : Word).toNat % 0x1000 :=
    Word.toNat_address (s.pc + 2)
  have h₂ : (2 : Word).toNat = 2 := rfl
  rw [BitVec.toNat_setWidth, BitVec.toNat_setWidth, BitVec.toNat_sub, h, BitVec.toNat_add, h₂]
  omega

/-! ### Jumps -/

theorem fault_jump (s : State) (target : Word) :
    (s.jump target).fault =
      if isProgramAddress target then none else some (.invalidJumpTarget target s.site) := by
  cases h : isProgramAddress target with
  | true => rw [jump_of_isProgramAddress h]; rfl
  | false => rw [jump_of_not_isProgramAddress h]; rfl

/-- The jump to an address fails if the address is reserved. -/
theorem fault_jump_address (s : State) (a : Address) :
    (s.jump (a.setWidth 16)).fault =
      if a.toNat < 0x200 then some (.invalidJumpTarget (a.setWidth 16) s.site) else none := by
  rw [fault_jump]
  by_cases ha : a.toNat < 0x200
  · rw [if_pos ha, if_neg (by rw [isProgramAddress_address_iff]; omega)]
  · rw [if_neg ha, if_pos (isProgramAddress_address_iff.2 (by omega))]

theorem not_isProgramAddress_address {a : Address} (h : a.toNat < 0x200) :
    isProgramAddress (a.setWidth 16) = false := by
  rw [← Bool.not_eq_true, isProgramAddress_address_iff]
  omega

theorem toNat_offsetTarget (v : Byte) (a : Address) :
    ((a + v.setWidth 12).setWidth 16 : Word).toNat = (v.toNat + a.toNat) % 0x1000 := by
  have hv : (v.setWidth 12 : Address).toNat = v.toNat := by
    have := v.isLt
    rw [BitVec.toNat_setWidth]
    omega
  rw [BitVec.toNat_setWidth, BitVec.toNat_add, hv]
  omega

/-! ### The two directions -/

/-- What a word that fails leaves behind: the program counter is on the next instruction, and a call
that has found a slot of the call stack has taken it. -/
def leftBy (s : State) (w : Word) : State :=
  if w.family = 0x2 then
    { s.advance with stack := (s.stack.push? s.advance.pc).getD s.stack }
  else s.advance

theorem leftBy_of_ne (h : w.family ≠ 0x2) : s.leftBy w = s.advance := if_neg h

theorem leftBy_of_some (h : w.family = 0x2) {stack : CallStack}
    (hp : s.stack.push? s.advance.pc = some stack) :
    s.leftBy w = { s.advance with stack := stack } := by
  rw [leftBy, if_pos h, hp]
  rfl

theorem leftBy_of_none (h : w.family = 0x2) (hp : s.stack.push? s.advance.pc = none) :
    s.leftBy w = s.advance := by
  rw [leftBy, if_pos h, hp]
  rfl

/-- What goes wrong is reported, and nothing else is. -/
theorem perform_of_fails (h : s.Fails w op f) : s.perform w op = .failed (s.leftBy w) f := by
  have hne {g : Digit} (hg : w.family = g) (hg₂ : g ≠ 0x2) : s.leftBy w = s.advance :=
    leftBy_of_ne (by rw [hg]; exact hg₂)
  rw [perform]
  cases h with
  | notImplemented h hc hr =>
    have hf := Word.family_eq_zero_iff.2 h
    rw [Instruction.decode_of_sys hf hc hr, hne hf (by decide), ← site_advance]
    rfl
  | unknown h =>
    have hw : ¬ w.IsInstruction := by
      rintro ⟨e, he, hm⟩
      exact h e he hm
    -- every word with leading digit 2 is an instruction
    have hf : w.family ≠ 0x2 := fun hf => hw (Word.isInstruction_iff.2 (.inl (by rw [hf]; decide)))
    rw [Instruction.decode_eq_unknown_iff.2 hw, leftBy_of_ne hf, ← site_advance]
    rfl
  | underflow h hd =>
    have hp : s.advance.stack.pop? = none := CallStack.pop?_eq_none_iff.2 hd
    rw [hne (g := 0x0) (by rw [h]; decide) (by decide), h, Instruction.decode_ret,
      Instruction.execute, pop_of_none hp, ← site_advance]
  | overflow h hd =>
    have hp : s.stack.push? s.advance.pc = none := CallStack.push?_eq_none_iff.2 hd
    rw [Instruction.decode_of_call h, leftBy_of_none h hp, ← site_advance]
    exact Instruction.execute_call_of_none op (s := s.advance) hp
  | jump h ht =>
    rw [Instruction.decode_of_jump h, hne h (by decide), ← site_advance]
    exact jump_of_not_isProgramAddress (not_isProgramAddress_address ht)
  | call h hd ht =>
    obtain ⟨stack, hp, -⟩ := CallStack.exists_push? (s.stack.length_entries ▸ hd) s.advance.pc
    -- the return address has been put on the stack by then, so the jump starts from there
    rw [Instruction.decode_of_call h, leftBy_of_some h hp,
      Instruction.execute_call_of_some op (s := s.advance) hp,
      jump_of_not_isProgramAddress (not_isProgramAddress_address ht), ← site_advance]
    rfl
  | jumpOffset h hs ht =>
    have htarget := BitVec.eq_of_toNat_eq (hs.trans (toNat_offsetTarget _ _).symm)
    have hlow : (w.nnn + (s.registers.get 0).setWidth 12).toNat < 0x200 := by
      rw [htarget, BitVec.toNat_setWidth_of_le (by decide)] at ht
      exact ht
    rw [Instruction.decode_of_jumpOffset h, htarget, hne h (by decide), ← site_advance]
    exact jump_of_not_isProgramAddress (not_isProgramAddress_address hlow)

theorem fault_of_fails (h : s.Fails w op f) : (s.perform w op).fault = some f := by
  rw [perform_of_fails h, Outcome.fault_failed]

/-- A jump to an address that fails is one to a reserved address. -/
theorem eq_of_fault_jump_address {a : Address} (h : (s.jump (a.setWidth 16)).fault = some f) :
    a.toNat < 0x200 ∧ f = .invalidJumpTarget (a.setWidth 16) s.site := by
  rw [fault_jump_address] at h
  split at h
  · rename_i ha
    exact ⟨ha, (Option.some.inj h).symm⟩
  · cases h

theorem fails_of_fault (h : (s.perform w op).fault = some f) : s.Fails w op f := by
  rw [perform] at h
  cases hi : Instruction.decode w with
  | ret =>
    rw [hi, Instruction.execute] at h
    cases hp : s.advance.stack.pop? with
    | none =>
      rw [pop_of_none hp, site_advance] at h
      obtain rfl := Option.some.inj h
      exact .underflow (Instruction.ret_of_decode hi) (CallStack.pop?_eq_none_iff.1 hp)
    | some p =>
      rw [pop_of_some hp] at h
      cases h
  | sys nnn =>
    obtain ⟨hf, hc, hr⟩ := Instruction.sys_of_decode hi
    rw [hi, Instruction.execute, site_advance] at h
    obtain rfl := Option.some.inj h
    exact .notImplemented (Word.family_eq_zero_iff.1 hf) hc hr
  | jump nnn =>
    obtain ⟨hf, rfl⟩ := Instruction.jump_of_decode hi
    rw [hi, Instruction.execute] at h
    obtain ⟨ht, rfl⟩ := eq_of_fault_jump_address h
    rw [site_advance]
    exact .jump hf ht
  | call nnn =>
    obtain ⟨hf, rfl⟩ := Instruction.call_of_decode hi
    rw [hi] at h
    cases hp : s.advance.stack.push? s.advance.pc with
    | none =>
      rw [Instruction.execute_call_of_none op hp, site_advance] at h
      obtain rfl := Option.some.inj h
      exact .overflow hf (CallStack.push?_eq_none_iff.1 hp)
    | some stack =>
      have hd : s.stack.depth < 16 := (CallStack.push?_eq_some hp).1
      rw [Instruction.execute_call_of_some op hp] at h
      obtain ⟨ht, rfl⟩ := eq_of_fault_jump_address h
      have hsite : ({ s.advance with stack := stack } : State).site = s.pc.address :=
        site_advance s
      rw [hsite]
      exact .call hf hd ht
  | jumpOffset nnn =>
    obtain ⟨hf, rfl⟩ := Instruction.jumpOffset_of_decode hi
    rw [hi, Instruction.execute] at h
    obtain ⟨ht, rfl⟩ := eq_of_fault_jump_address h
    rw [site_advance]
    refine .jumpOffset hf (toNat_offsetTarget _ _) ?_
    rwa [BitVec.toNat_setWidth_of_le (by decide)]
  | unknown v =>
    have hw : ¬ w.IsInstruction := by
      rw [← Instruction.decode_eq_unknown_iff, hi, Instruction.unknown_of_decode hi]
    rw [hi, Instruction.execute, site_advance] at h
    obtain rfl := Option.some.inj h
    exact .unknown fun e he hm => hw ⟨e, he, hm⟩
  | _ =>
    -- the other instructions always succeed
    rw [hi] at h
    cases h

end State

/-! ### The word in the reports -/

theorem State.jump_withWord (s : State) (target op : Word) :
    (s.jump target).fault.map (Fault.withWord op) = (s.jump target).fault := by
  rw [fault_jump]
  split
  · rfl
  · rfl

/-- The word that stands for an instruction in reports has no influence on anything else. -/
theorem Instruction.execute_withWord (i : Instruction) (s : State) (op op' : Word) :
    i.execute op' s =
      { i.execute op s with fault := (i.execute op s).fault.map (Fault.withWord op') } := by
  cases i with
  | ret =>
    cases hp : s.stack.pop? with
    | none => simp only [execute, State.pop_of_none hp]; rfl
    | some p => simp only [execute, State.pop_of_some hp]; rfl
  | jump nnn => simp only [execute, State.jump_withWord]
  | call nnn =>
    cases hp : s.stack.push? s.pc with
    | none => simp only [execute_call_of_none _ hp]; rfl
    | some stack => simp only [execute_call_of_some _ hp, State.jump_withWord]
  | jumpOffset nnn => simp only [execute, State.jump_withWord]
  | _ => rfl

/-- **An instruction fails exactly if one of the six things goes wrong**, and reports which. The
word `op` that stands for it in the reports shows in two of them and nowhere else: with another
one, the state, the log and all else of the fault are the same. -/
theorem State.fault_iff_fails (s : State) (w op : Word) :
    (∀ f, (s.perform w op).fault = some f ↔ s.Fails w op f) ∧
      ∀ op', s.perform w op' =
        { s.perform w op with fault := (s.perform w op).fault.map (Fault.withWord op') } :=
  ⟨fun _ => ⟨fails_of_fault, fault_of_fails⟩,
    fun op' => (Instruction.decode w).execute_withWord s.advance op op'⟩

end ChipEight
