import ChipEight.Proofs.Checks.Numbers
import ChipEight.Proofs.Effects

/-!
# A state in plain numbers

The state of the machine held as bytes and words alone: the stack pointer is a byte, and so is the
number of the register that a key wait is for. Nothing keeps either of them within its bounds, and
every access to a register, a slot of the call stack or a byte of memory is checked. A plain state
stands for a state of the machine, and with no more than sixteen slots in use each operation on it
passes its checks and does what the operation on that state does.

* `PlainState`, `PlainState.view` : a plain state, and the state that it stands for;
* `PlainState.register?`, `PlainState.readByte?`, `PlainState.writeByte?` : checked accesses;
* `PlainState.fetch?`, `PlainState.jump`, `PlainState.push?`, `PlainState.pop?` : the operations
  that instructions are made of;
* `PlainState.Bounded`, `PlainState.Agrees` : the bounds that are kept, and checks that pass with an
  outcome as expected;
* `PlainState.agrees_push?`, `PlainState.agrees_pop?` : the two that move the stack pointer;
* `PlainState.isSome_pop?` : the bound on the stack pointer is what a return needs.
-/

namespace ChipEight

/-- What the processor does, with the register of a key wait as a byte. -/
inductive PlainMode where
  /-- It executes instructions. -/
  | running
  /-- It waits for a key, which register `x` will receive. -/
  | waiting (x : Byte)
deriving DecidableEq, Repr

/-- The mode that a plain one stands for. -/
def PlainMode.view : PlainMode → Mode
  | running => .running
  | waiting x => .waiting (x.setWidth 4)

/-- The state of the machine in plain numbers. -/
structure PlainState where
  /-- The sixteen registers. -/
  registers : Registers
  /-- The index register. -/
  index : Word
  /-- The program counter. -/
  pc : Word
  /-- The stack pointer: the number of the next free slot. -/
  sp : Byte
  /-- The slots of the call stack, whether in use or not. -/
  slots : Bank 4 Word
  /-- The bytes of memory. -/
  memory : Memory
  /-- The rows of the display. -/
  frame : Frame
  /-- The two timers. -/
  timers : Timers
  /-- The keys that are held down. -/
  keypad : Keypad
  /-- Whether the processor runs or waits. -/
  mode : PlainMode
  /-- The random numbers still to come. -/
  random : RandomSource

namespace PlainState

/-- The state before a program is loaded. -/
def initial (random : RandomSource) : PlainState where
  registers := Bank.replicate 0
  index := 0
  pc := 0x200
  sp := 0
  slots := Bank.replicate 0
  memory := .initial
  frame := .blank
  timers := .zero
  keypad := .empty
  mode := .running
  random := random

variable (s : PlainState)

/-- The state that a plain state stands for, if no more slots are in use than there are. -/
def view : State where
  registers := s.registers
  index := s.index
  pc := s.pc
  stack :=
    { slots := s.slots, depth := min s.sp.toNat stackSize, depth_le := Nat.min_le_right .. }
  memory := s.memory
  frame := s.frame
  timers := s.timers
  keypad := s.keypad
  mode := s.mode.view
  random := s.random

/-! ### Registers -/

/-- The byte in the register with number `x`. -/
def register? (x : Byte) : Option Byte := s.registers.get? x.toNat

/-- The state with `v` in the register with number `x`. -/
def setRegister? (x v : Byte) : Option PlainState :=
  (s.registers.set? x.toNat v).map fun registers => { s with registers := registers }

theorem toNat_setWidth_digit (x : Digit) : (x.setWidth 8 : Byte).toNat = x.toNat :=
  BitVec.toNat_setWidth_of_le (by decide)

theorem setWidth_setWidth_digit (x : Digit) : (x.setWidth 8 : Byte).setWidth 4 = x := by
  rw [BitVec.setWidth_setWidth_of_le _ (by decide), BitVec.setWidth_eq]

theorem setWidth_digit_of_lt {x : Byte} (h : x.toNat < 16) :
    ((x.setWidth 4 : Digit).setWidth 8 : Byte) = x := by
  refine BitVec.eq_of_toNat_eq ?_
  rw [toNat_setWidth_digit, BitVec.toNat_setWidth]
  exact Nat.mod_eq_of_lt h

@[simp] theorem register?_digit (x : Digit) :
    s.register? (x.setWidth 8) = some (s.registers.get x) := by
  rw [register?, toNat_setWidth_digit, Bank.get?_toNat]

@[simp] theorem setRegister?_digit (x : Digit) (v : Byte) :
    s.setRegister? (x.setWidth 8) v = some { s with registers := s.registers.set x v } := by
  rw [setRegister?, toNat_setWidth_digit, Bank.set?_toNat]
  rfl

/-! ### Memory -/

/-- The address of the instruction in execution. -/
def site : Address := (s.pc - 2).address

/-- The byte at an address, of which the low twelve bits count. -/
def readByte? (a : Word) : Option Byte := s.memory.get? (a &&& 0x0FFF).toNat

/-- Stores `v` at an address, of which the low twelve bits count. -/
def writeByte? (a : Word) (v : Byte) : Option (Outcome PlainState) :=
  let a := a &&& 0x0FFF
  if a.toNat < 0x200 then some (.reported s [.droppedStore v a.address s.site])
  else (s.memory.set? a.toNat v).map fun memory => .done { s with memory := memory }

/-- The instruction word at the program counter. -/
def fetch? : Option Word := do
  let left ← s.readByte? s.pc
  let right ← s.readByte? (s.pc + 1)
  let high ← shiftLeft? (left.setWidth 16 : Word) 8
  some (high ||| right.setWidth 16)

theorem toNat_and_addressMask (a : Word) : (a &&& 0x0FFF).toNat = a.address.toNat := by
  rw [← Word.setWidth_address, BitVec.toNat_setWidth_of_le (by decide)]

theorem address_and_addressMask (a : Word) : (a &&& 0x0FFF).address = a.address := by
  rw [← Word.setWidth_address, Word.address, BitVec.setWidth_setWidth_of_le _ (by decide),
    BitVec.setWidth_eq]

@[simp] theorem readByte?_eq_some (a : Word) : s.readByte? a = some (s.memory.get a.address) := by
  rw [readByte?, toNat_and_addressMask, Bank.get?_toNat]

theorem writeByte?_eq_some (a : Word) (v : Byte) :
    s.writeByte? a v =
      some (.reported { s with memory := s.memory.store a.address v }
        (s.view.dropReport? (a.address, v)).toList) := by
  simp only [writeByte?, toNat_and_addressMask, address_and_addressMask]
  by_cases h : a.address.toNat < 0x200
  · have hr : Memory.isReserved a.address = true := Memory.isReserved_iff.2 h
    rw [if_pos h, Memory.store, State.dropReport?, if_pos hr, if_pos hr]
    rfl
  · have hr : ¬ Memory.isReserved a.address = true := mt Memory.isReserved_iff.1 h
    rw [if_neg h, Memory.store, State.dropReport?, if_neg hr, if_neg hr, Bank.set?_toNat]
    rfl

theorem shiftLeft_or (high low : Byte) :
    ((high.setWidth 16 : Word) <<< 8 ||| low.setWidth 16) = Word.ofBytes high low := by
  refine BitVec.eq_of_toNat_eq ?_
  have hhigh := high.isLt
  have hlow := low.isLt
  have happend : (Word.ofBytes high low).toNat = high.toNat <<< 8 ||| low.toNat :=
    BitVec.toNat_append ..
  rw [happend, BitVec.toNat_or, BitVec.toNat_shiftLeft, BitVec.toNat_setWidth_of_le (by decide),
    BitVec.toNat_setWidth_of_le (by decide), Nat.mod_eq_of_lt]
  rw [Nat.shiftLeft_eq]
  omega

theorem fetch?_eq_some : s.fetch? = some s.view.fetch := by
  have hnext : (s.pc + 1).address = s.pc.address + 1 := Word.address_add _ _
  simp only [fetch?, readByte?_eq_some, hnext, shiftLeft?_eq_some (show 8 < 16 by decide),
    Option.bind_eq_bind, Option.bind_some, shiftLeft_or]
  rfl

/-! ### The program counter -/

/-- The state with the program counter on the next instruction. -/
def advance : PlainState := { s with pc := (s.pc + 2) &&& 0x0FFF }

/-- Goes on at `target`, which has to lie in the part of memory that programs occupy. -/
def jump (target : Word) : Outcome PlainState :=
  if target.toNat < 0x200 ∨ 0x1000 ≤ target.toNat then
    .failed s (.invalidJumpTarget target s.site)
  else .done { s with pc := target }

theorem view_advance : s.advance.view = s.view.advance := by
  rw [advance, ← Word.setWidth_address]
  rfl

/-- No more slots are in use than there are, and a key wait is for a register below the limit. -/
def Bounded (limit : Nat) (s : PlainState) : Prop :=
  s.sp.toNat ≤ stackSize ∧ ∀ x, s.mode = .waiting x → x.toNat < limit

/-- The checks pass, the bounds are kept, and the outcome is the expected one. -/
def Agrees (limit : Nat) (p : Option (Outcome PlainState)) (o : Outcome State) : Prop :=
  ∃ q, p = some q ∧ q.state.Bounded limit ∧ q.map view = o

variable {s} {limit : Nat}

/-- What the registers hold does not matter to the bounds. -/
theorem Bounded.withRegisters (h : s.Bounded limit) (registers : Registers) :
    ({ s with registers := registers } : PlainState).Bounded limit :=
  h

theorem agrees_done (h : s.Bounded limit) : Agrees limit (some (.done s)) (.done s.view) :=
  ⟨_, rfl, h, rfl⟩

theorem agrees_failed (h : s.Bounded limit) (f : Fault) :
    Agrees limit (some (.failed s f)) (.failed s.view f) :=
  ⟨_, rfl, h, rfl⟩

theorem agrees_jump (h : s.Bounded limit) (target : Word) :
    Agrees limit (some (s.jump target)) (s.view.jump target) := by
  by_cases ht : target.toNat < 0x200 ∨ 0x1000 ≤ target.toNat
  · have hp : isProgramAddress target = false := by
      rw [← Bool.not_eq_true, isProgramAddress_iff]
      omega
    rw [jump, if_pos ht, State.jump_of_not_isProgramAddress hp]
    exact agrees_failed h _
  · have hp : isProgramAddress target = true := by
      rw [isProgramAddress_iff]
      omega
    rw [jump, if_neg ht, State.jump_of_isProgramAddress hp]
    exact ⟨_, rfl, h, rfl⟩

/-! ### The call stack -/

variable (s) in
/-- Puts the program counter into the next free slot. -/
def push? : Option (Outcome PlainState) :=
  if stackSize ≤ s.sp.toNat then some (.failed s (.stackOverflow s.site))
  else do
    let slots ← s.slots.set? s.sp.toNat s.pc
    let sp ← add? s.sp 1
    some (.done { s with slots := slots, sp := sp })

variable (s) in
/-- Takes the program counter from the last slot in use. -/
def pop? : Option (Outcome PlainState) :=
  if s.sp = 0 then some (.failed s (.stackUnderflow s.site))
  else do
    let sp ← sub? s.sp 1
    let pc ← s.slots.get? sp.toNat
    some (.done { s with pc := pc, sp := sp })

theorem depth_view (h : s.sp.toNat ≤ stackSize) : s.view.stack.depth = s.sp.toNat :=
  Nat.min_eq_left h

theorem stack_view_eq {t : CallStack} (hslots : s.slots = t.slots)
    (hdepth : s.sp.toNat = t.depth) : s.view.stack = t := by
  obtain ⟨slots, depth, hle⟩ := t
  have hmin : min s.sp.toNat stackSize = depth := by
    rw [hdepth]
    exact Nat.min_eq_left hle
  simp only [view, hslots, hmin]

/-- A call writes the slot below sixteen that the stack pointer names, and moves it by one. -/
theorem agrees_push? (h : s.Bounded limit) : Agrees limit s.push? s.view.push := by
  by_cases hfull : stackSize ≤ s.sp.toNat
  · have hnone : s.view.stack.push? s.view.pc = none :=
      CallStack.push?_eq_none_iff.2 ((depth_view h.1).trans (Nat.le_antisymm h.1 hfull))
    rw [push?, if_pos hfull, State.push_of_none hnone]
    exact agrees_failed h _
  · have hlt : s.sp.toNat < 16 := Nat.not_le.1 hfull
    cases hpush : s.view.stack.push? s.view.pc with
    | none =>
      rw [CallStack.push?_eq_none_iff, depth_view h.1] at hpush
      exact absurd (Nat.le_of_eq hpush.symm) hfull
    | some t =>
      obtain ⟨-, hslots, hdepth⟩ := CallStack.push?_eq_some hpush
      rw [depth_view h.1] at hslots hdepth
      have hsp : (s.sp + 1).toNat = s.sp.toNat + 1 := by
        rw [BitVec.toNat_add]
        change (s.sp.toNat + 1) % 256 = _
        omega
      have hadd : add? s.sp 1 = some (s.sp + 1) := add?_eq_some (by
        change s.sp.toNat + 1 < 256
        omega)
      rw [push?, if_neg hfull, State.push_of_some hpush, Bank.set?_eq_some _ hlt, hadd]
      refine ⟨_, rfl, ⟨Nat.le_trans (Nat.le_of_eq hsp) hlt, h.2⟩, ?_⟩
      have hview := stack_view_eq
        (s := { s with slots := s.slots.set (BitVec.ofNat 4 s.sp.toNat) s.pc, sp := s.sp + 1 })
        hslots.symm (hsp.trans hdepth.symm)
      rw [← hview]
      rfl

/-- A return moves a stack pointer above zero, and reads a slot below sixteen. -/
theorem agrees_pop? (h : s.Bounded limit) : Agrees limit s.pop? s.view.pop := by
  by_cases hzero : s.sp = 0
  · have hnone : s.view.stack.pop? = none := by
      rw [CallStack.pop?_eq_none_iff, depth_view h.1, hzero]
      rfl
    rw [pop?, if_pos hzero, State.pop_of_none hnone]
    exact agrees_failed h _
  · obtain ⟨hsub, hsp⟩ := sub?_one hzero
    have h16 : s.sp.toNat ≤ 16 := h.1
    cases hpop : s.view.stack.pop? with
    | none =>
      rw [CallStack.pop?_eq_none_iff, depth_view h.1] at hpop
      exact absurd (BitVec.eq_of_toNat_eq hpop) hzero
    | some p =>
      obtain ⟨pc, t⟩ := p
      obtain ⟨hdepth, rfl, hslots⟩ := CallStack.pop?_eq_some hpop
      rw [depth_view h.1] at hdepth
      have hsp : (s.sp - 1).toNat = t.depth := by
        rw [hsp, hdepth]
        rfl
      have hlt : t.depth < 16 := by omega
      have hget : s.slots.get? (s.sp - 1).toNat = some (s.slots.get (CallStack.slot t.depth)) := by
        rw [hsp]
        exact Bank.get?_eq_some _ hlt
      rw [pop?, if_neg hzero, State.pop_of_some hpop, hsub]
      simp only [Option.bind_eq_bind, Option.bind_some, hget]
      refine ⟨_, rfl, ⟨Nat.le_trans (Nat.le_of_eq hsp) t.depth_le, h.2⟩, ?_⟩
      have hview := stack_view_eq
        (s := { s with pc := s.slots.get (CallStack.slot t.depth), sp := s.sp - 1 })
        hslots.symm hsp
      rw [← hview]
      rfl

/-- The bound on the stack pointer is what a return needs. -/
theorem isSome_pop? : s.pop?.isSome = true ↔ s.sp.toNat ≤ stackSize := by
  by_cases hzero : s.sp = 0
  · rw [pop?, if_pos hzero, hzero]
    exact ⟨fun _ => by decide, fun _ => rfl⟩
  · obtain ⟨hsub, hsp⟩ := sub?_one hzero
    have hslot : (s.slots.get? (s.sp - 1).toNat).isSome = true ↔ s.sp.toNat ≤ stackSize := by
      rw [Bank.get?_isSome_iff, hsp]
      change s.sp.toNat - 1 < 16 ↔ s.sp.toNat ≤ 16
      omega
    rw [pop?, if_neg hzero, hsub, ← hslot]
    simp only [Option.bind_eq_bind, Option.bind_some]
    cases s.slots.get? (s.sp - 1).toNat <;> rfl

end PlainState

end ChipEight
