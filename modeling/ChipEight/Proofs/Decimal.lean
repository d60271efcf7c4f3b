import ChipEight.Proofs.BlockTransfer
import Mathlib.Tactic.IntervalCases

/-!
# Decimal digits in memory

A program shows a number by its decimal digits, and one instruction takes a byte apart into its
hundreds, tens and ones. They are stored to three consecutive places from the index register on,
round the end of memory, except for those whose place is reserved, and they are the only digits
with the value of the byte. If none of the three places is reserved, loading three registers from
the same index register gives the digits back.

* `IsDecimal`, `IsDecimal.unique` : three digits and their value;
* `Byte.digit`, `Byte.isDecimal_digit`, `Byte.decimalDigits_eq` : the digits that the machine
  computes;
* `State.storeDigits`, `State.get_storeDigits_of_eq`, `State.get_storeDigits_of_ne` : the
  instruction, and what it leaves at each place;
* `State.DecimalLaw`, `State.digits_stored` : the result.
-/

namespace ChipEight

/-- The hundreds, tens and ones of a number are `d 0`, `d 1` and `d 2`. -/
structure IsDecimal (n : Nat) (d : Nat → Nat) : Prop where
  /-- Each of them is a digit. -/
  digit_le : ∀ j ≤ 2, d j ≤ 9
  /-- Together they have the value of the number. -/
  value_eq : 100 * d 0 + 10 * d 1 + d 2 = n

/-- A number has only one sequence of digits. -/
theorem IsDecimal.unique {n : Nat} {d e : Nat → Nat} (h : IsDecimal n d) (h' : IsDecimal n e) :
    ∀ j ≤ 2, e j = d j := by
  have hd₁ := h.digit_le 1 (by decide)
  have hd₂ := h.digit_le 2 (by decide)
  have he₁ := h'.digit_le 1 (by decide)
  have he₂ := h'.digit_le 2 (by decide)
  have hvalue := h.value_eq.trans h'.value_eq.symm
  intro j hj
  interval_cases j <;> omega

namespace Byte

/-- Number `j` of the hundreds, tens and ones of a byte. -/
def digit (b : Byte) : Nat → Nat
  | 0 => b.toNat / 100
  | 1 => b.toNat / 10 % 10
  | _ => b.toNat % 10

theorem isDecimal_digit (b : Byte) : IsDecimal b.toNat b.digit where
  digit_le j hj := by
    have := b.isLt
    interval_cases j <;> simp only [digit] <;> omega
  value_eq := by
    simp only [digit]
    omega

/-- The machine computes the digits with bytes. -/
theorem decimalDigits_eq (b : Byte) :
    b.decimalDigits = (List.range 3).map fun j => BitVec.ofNat 8 (b.digit j) := by
  have hbyte (v : Byte) (n : Nat) (h : v.toNat = n) : v = BitVec.ofNat 8 n := by
    rw [← h, BitVec.ofNat_toNat, BitVec.setWidth_eq]
  have h₀ := hbyte (b / 100) (b.digit 0) BitVec.toNat_udiv
  have h₁ := hbyte (b / 10 % 10) (b.digit 1) (by rw [BitVec.toNat_umod, BitVec.toNat_udiv]; rfl)
  have h₂ := hbyte (b % 10) (b.digit 2) BitVec.toNat_umod
  rw [decimalDigits, h₀, h₁, h₂]
  rfl

theorem toNat_ofNat_digit (b : Byte) {j : Nat} (h : j ≤ 2) :
    (BitVec.ofNat 8 (b.digit j)).toNat = b.digit j := by
  rw [BitVec.toNat_ofNat]
  exact Nat.mod_eq_of_lt (Nat.lt_of_le_of_lt (b.isDecimal_digit.digit_le j h) (by decide))

end Byte

namespace State

/-- Stores the digits of register `x`, the instruction `Fx33`. -/
def storeDigits (s : State) (x : Digit) (op : Word) : Outcome State :=
  s.perform (Word.ofByte 0xF x 0x33) op

variable {s : State} {x : Digit} {op : Word}

theorem storeDigits_eq :
    s.storeDigits x op =
      s.advance.storeAtIndex
        ((List.range 3).map fun j => BitVec.ofNat 8 ((s.registers.get x).digit j)) := by
  have hd : Instruction.decode (Word.ofByte 0xF x 0x33) = .storeDecimal x := by
    simp [Instruction.decode, Instruction.decodeTransfer]
  rw [storeDigits, perform, hd, ← Byte.decimalDigits_eq]
  rfl

theorem get_storeDigits_of_eq (s : State) (x : Digit) (op : Word) {j : Nat} {a : Address}
    (hj : j ≤ 2) (ha : a.toNat = (s.index.toNat + j) % 0x1000) :
    (s.storeDigits x op).state.memory.get a =
      if 0x200 ≤ a.toNat then BitVec.ofNat 8 ((s.registers.get x).digit j)
      else s.memory.get a := by
  rw [storeDigits_eq]
  refine Memory.get_storeAll_cells_of_eq s.memory (by simp) ?_ ha
  rw [List.getElem?_map, List.getElem?_range (Nat.lt_succ_of_le hj)]
  rfl

theorem get_storeDigits_of_ne (s : State) (x : Digit) (op : Word) {a : Address}
    (ha : ∀ j ≤ 2, a.toNat ≠ (s.index.toNat + j) % 0x1000) :
    (s.storeDigits x op).state.memory.get a = s.memory.get a := by
  rw [storeDigits_eq]
  refine Memory.get_storeAll_cells_of_ne s.memory (by simp) fun j hj => ha j ?_
  exact Nat.le_of_lt_succ (by simpa using hj)

theorem state_storeDigits (s : State) (x : Digit) (op : Word) :
    (s.storeDigits x op).state =
      { s.advance with memory := (s.storeDigits x op).state.memory } := by
  rw [storeDigits_eq]
  rfl

/-- The value of the digits in registers 0, 1 and 2. -/
def threeDigits (s : State) : Nat :=
  100 * (s.registers.get 0).toNat + 10 * (s.registers.get 1).toNat + (s.registers.get 2).toNat

/-- The digits come back from a load, if none of their places is reserved. -/
theorem threeDigits_loadBlock {t : State} {op' : Word} (hindex : t.index = s.index)
    (hmemory : t.memory = (s.storeDigits x op).state.memory)
    (h : ∀ j ≤ 2, 0x200 ≤ (s.index.toNat + j) % 0x1000) :
    (t.loadBlock 2 op').state.threeDigits = (s.registers.get x).toNat := by
  have hloaded (j : Digit) (hj : j ≤ 2) :
      ((t.loadBlock 2 op').state.registers.get j).toNat = (s.registers.get x).digit j.toNat := by
    have hj' : j.toNat ≤ 2 := BitVec.le_def.1 hj
    have hplace : (t.place j).toNat = (s.index.toNat + j.toNat) % 0x1000 := by
      rw [place, hindex]
      exact BitVec.toNat_ofNat ..
    rw [get_loadBlock, if_pos hj, hmemory, get_storeDigits_of_eq s x op hj' hplace,
      if_pos (hplace ▸ h _ hj'), Byte.toNat_ofNat_digit _ hj']
  rw [threeDigits, hloaded 0 (by decide), hloaded 1 (by decide), hloaded 2 (by decide)]
  exact (Byte.isDecimal_digit _).value_eq

/-- The law of storing three digits of register `x`. -/
structure DecimalLaw (s : State) (x : Digit) (op : Word) (d : Nat → Nat) : Prop where
  /-- Storing them never fails. -/
  succeeds : (s.storeDigits x op).fault = none
  /-- A digit is put to its place, round the end of memory, if that is not reserved. -/
  stored : ∀ j ≤ 2, ∀ a : Address, a.toNat = (s.index.toNat + j) % 0x1000 → 0x200 ≤ a.toNat →
    ((s.storeDigits x op).state.memory.get a).toNat = d j
  /-- The other bytes of memory are as they were, and so are those of the reserved area. -/
  others : ∀ a : Address, (∀ j ≤ 2, a.toNat = (s.index.toNat + j) % 0x1000 → a.toNat < 0x200) →
    (s.storeDigits x op).state.memory.get a = s.memory.get a
  /-- So is all else, except that the next instruction comes after this one. -/
  rest : (s.storeDigits x op).state =
    { s.advance with memory := (s.storeDigits x op).state.memory }
  /-- If none of the places is reserved, a load of three registers from the same index register
  succeeds and gives back the value, whatever has happened to the registers in between. -/
  loaded : (∀ j ≤ 2, 0x200 ≤ (s.index.toNat + j) % 0x1000) →
    ∀ (t : State) (op' : Word), t.index = s.index → t.memory = (s.storeDigits x op).state.memory →
      (t.loadBlock 2 op').fault = none ∧
        (t.loadBlock 2 op').state.threeDigits = (s.registers.get x).toNat

theorem decimalLaw_digit (s : State) (x : Digit) (op : Word) :
    s.DecimalLaw x op (s.registers.get x).digit where
  succeeds := by
    rw [storeDigits_eq]
    rfl
  stored j hj a ha hge := by
    rw [get_storeDigits_of_eq s x op hj ha, if_pos hge, Byte.toNat_ofNat_digit _ hj]
  others a ha := by
    by_cases h : ∃ j ≤ 2, a.toNat = (s.index.toNat + j) % 0x1000
    · obtain ⟨j, hj, hplace⟩ := h
      rw [get_storeDigits_of_eq s x op hj hplace, if_neg (Nat.not_le.2 (ha j hj hplace))]
    · exact get_storeDigits_of_ne s x op fun j hj hplace => h ⟨j, hj, hplace⟩
  rest := state_storeDigits s x op
  loaded h t op' hindex hmemory := by
    refine ⟨?_, threeDigits_loadBlock hindex hmemory h⟩
    rw [loadBlock_eq]
    rfl

/-- **A byte in three digits.** A byte has one sequence of three digits. Storing them puts each to
its place behind the index register, if that is not reserved, and changes nothing else; loading
them from there gives the byte back, also if they come to the register that they were taken from. -/
theorem digits_stored (s : State) (x : Digit) (op : Word) :
    ∃ d, IsDecimal (s.registers.get x).toNat d ∧
      (∀ e, IsDecimal (s.registers.get x).toNat e → ∀ j ≤ 2, e j = d j) ∧
      s.DecimalLaw x op d := by
  have hd := (s.registers.get x).isDecimal_digit
  exact ⟨_, hd, fun e he => hd.unique he, s.decimalLaw_digit x op⟩

end State

end ChipEight
