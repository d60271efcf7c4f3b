import ChipEight.Instruction.Encode
import ChipEight.Proofs.Effects
import Mathlib.Data.List.GetD

/-!
# Block transfers

Registers 0 to `x` are stored to consecutive places from the index register on, or loaded from
there. The places are taken round the end of memory. A block has at most sixteen of them, so no two
registers share one and each place can be looked at on its own: a byte comes back from a store
unless its place is reserved, where the store is dropped and the byte of the reserved area is
loaded instead. Loading first makes the store write what is there already.

* `Memory.get_storeAll_cells` : what storing a list of bytes leaves at each address;
* `State.place`, `State.place_injective` : where a register goes;
* `State.get_storeBlock_place`, `State.get_storeBlock_of_ne`, `State.get_loadBlock` : what the two
  instructions do to each byte and to each register;
* `State.block_transfer` : the result, with both round trips.
-/

namespace ChipEight

namespace Memory

/-- A list of bytes goes to consecutive addresses, round the end of memory, except for those bytes
whose address is reserved. -/
theorem get_storeAll_cells (m : Memory) (start a : Address) {bytes : List Byte}
    (h : bytes.length ≤ 0x1000) :
    (m.storeAll (cells start bytes)).get a =
      if isReserved a then m.get a else bytes.getD (a - start).toNat (m.get a) := by
  induction bytes generalizing m start with
  | nil => simp [cells, storeAll]
  | cons v vs ih =>
    rw [List.length_cons] at h
    have hcons : m.storeAll (cells start (v :: vs)) =
        (m.store start v).storeAll (cells (start + 1) vs) := rfl
    rw [hcons, ih _ _ (by omega), get_store]
    by_cases hr : isReserved a = true
    · rw [if_pos hr, if_pos hr, if_neg]
      rintro ⟨hs, rfl⟩
      rw [hr] at hs
      cases hs
    · rw [if_neg hr, if_neg hr]
      by_cases ha : start = a
      · -- no later byte comes round to the first address
        subst ha
        have hlast : (start - (start + 1)).toNat = 0xFFF := by bv_omega
        rw [hlast, BitVec.sub_self, if_pos ⟨Bool.eq_false_iff.2 hr, rfl⟩,
          List.getD_eq_default _ _ (by omega)]
        rfl
      · have hnext : (a - start).toNat = (a - (start + 1)).toNat + 1 := by
          bv_omega
        rw [if_neg fun hc => ha hc.2, hnext, List.getD_cons_succ]

theorem get_storeAll_cells_of_eq (m : Memory) {index : Word} {a : Address} {bytes : List Byte}
    {j : Nat} {v : Byte} (h : bytes.length ≤ 0x1000) (hv : bytes[j]? = some v)
    (ha : a.toNat = (index.toNat + j) % 0x1000) :
    (m.storeAll (cells index.address bytes)).get a = if 0x200 ≤ a.toNat then v else m.get a := by
  have hj : j < bytes.length := (List.getElem?_eq_some_iff.1 hv).1
  have hsub := (Word.toNat_sub_address_eq_iff (Nat.lt_of_lt_of_le hj h)).2 ha
  rw [get_storeAll_cells _ _ _ h, hsub, List.getD_eq_getElem?_getD, hv, Option.getD_some]
  by_cases hr : a.toNat < 0x200
  · rw [if_pos (isReserved_iff.2 hr), if_neg (Nat.not_le.2 hr)]
  · rw [if_neg (mt isReserved_iff.1 hr), if_pos (Nat.not_lt.1 hr)]

theorem get_storeAll_cells_of_ne (m : Memory) {index : Word} {a : Address} {bytes : List Byte}
    (h : bytes.length ≤ 0x1000)
    (ha : ∀ j < bytes.length, a.toNat ≠ (index.toNat + j) % 0x1000) :
    (m.storeAll (cells index.address bytes)).get a = m.get a := by
  rw [get_storeAll_cells _ _ _ h]
  split
  · rfl
  · refine List.getD_eq_default _ _ (Nat.le_of_not_lt fun hlt => ha _ hlt ?_)
    exact (Word.toNat_sub_address_eq_iff (toNat_lt_wordCount _)).1 rfl

end Memory

namespace State

/-- Stores registers 0 to `x`, the instruction `Fx55`. -/
def storeBlock (s : State) (x : Digit) (op : Word) : Outcome State :=
  s.perform (Word.ofByte 0xF x 0x55) op

/-- Loads registers 0 to `x`, the instruction `Fx65`. -/
def loadBlock (s : State) (x : Digit) (op : Word) : Outcome State :=
  s.perform (Word.ofByte 0xF x 0x65) op

/-- The place of register `j` in a block at the index register. -/
def place (s : State) (j : Digit) : Address := BitVec.ofNat 12 (s.index.toNat + j.toNat)

variable {s : State} {x j : Digit} {op : Word}

theorem place_eq (s : State) (j : Digit) : s.place j = s.index.address + j.setWidth 12 := by
  rw [place, ← Word.address_add_ofNat, BitVec.ofNat_toNat]

theorem toNat_place_sub (s : State) (j : Digit) :
    (s.place j - s.index.address).toNat = j.toNat := by
  rw [place_eq, BitVec.add_comm, BitVec.add_sub_cancel, BitVec.toNat_setWidth]
  exact Nat.mod_eq_of_lt (Nat.lt_trans j.isLt (by decide))

theorem place_injective {j k : Digit} (h : s.place j = s.place k) : j = k := by
  refine BitVec.eq_of_toNat_eq ?_
  rw [← toNat_place_sub s j, h, toNat_place_sub]

theorem storeBlock_eq :
    s.storeBlock x op = s.advance.storeAtIndex (s.registers.toList.take (x.toNat + 1)) := by
  have hd : Instruction.decode (Word.ofByte 0xF x 0x55) = .storeRegisters x := by
    simp [Instruction.decode, Instruction.decodeTransfer]
  rw [storeBlock, perform, hd]
  rfl

theorem loadBlock_eq : s.loadBlock x op = .done (s.advance.loadRegisters x) := by
  have hd : Instruction.decode (Word.ofByte 0xF x 0x65) = .loadRegisters x := by
    simp [Instruction.decode, Instruction.decodeTransfer]
  rw [loadBlock, perform, hd]
  rfl

theorem getElem?_block (s : State) (h : j ≤ x) :
    (s.registers.toList.take (x.toNat + 1))[j.toNat]? = some (s.registers.get j) := by
  have hj : j.toNat < x.toNat + 1 := Nat.lt_succ_of_le (BitVec.le_def.1 h)
  rw [Bank.take_toList _ x.isLt, List.getElem?_map, List.getElem?_range hj, Option.map_some,
    BitVec.ofNat_toNat, BitVec.setWidth_eq]

theorem get_storeBlock_place (s : State) (op : Word) (h : j ≤ x) :
    (s.storeBlock x op).state.memory.get (s.place j) =
      if 0x200 ≤ (s.place j).toNat then s.registers.get j else s.memory.get (s.place j) := by
  have hlength : (s.registers.toList.take (x.toNat + 1)).length = x.toNat + 1 :=
    Bank.length_take_toList _ x.isLt
  rw [storeBlock_eq]
  exact Memory.get_storeAll_cells_of_eq s.memory (by omega) (s.getElem?_block h)
    (BitVec.toNat_ofNat ..)

theorem get_storeBlock_of_ne (s : State) (op : Word) {a : Address} (h : ∀ j ≤ x, a ≠ s.place j) :
    (s.storeBlock x op).state.memory.get a = s.memory.get a := by
  have hlength : (s.registers.toList.take (x.toNat + 1)).length = x.toNat + 1 :=
    Bank.length_take_toList _ x.isLt
  have hx : x.toNat < 16 := x.isLt
  rw [storeBlock_eq]
  refine Memory.get_storeAll_cells_of_ne s.memory (by omega) fun k hk ha => ?_
  have hdigit : (BitVec.ofNat 4 k).toNat = k := Nat.mod_eq_of_lt (by omega)
  refine h (BitVec.ofNat 4 k) ?_ (BitVec.eq_of_toNat_eq ?_)
  · rw [BitVec.le_def, hdigit]
    omega
  · rw [ha, place, hdigit, BitVec.toNat_ofNat]
    rfl

theorem get_loadBlock (s : State) (x j : Digit) (op : Word) :
    (s.loadBlock x op).state.registers.get j =
      if j ≤ x then s.memory.get (s.place j) else s.registers.get j := by
  rw [loadBlock_eq, place_eq, Outcome.state_done, loadRegisters, Bank.get_ofFn]
  rfl

theorem state_storeBlock (s : State) (x : Digit) (op : Word) :
    (s.storeBlock x op).state =
      { s.advance with memory := (s.storeBlock x op).state.memory } := by
  rw [storeBlock_eq]
  rfl

theorem state_loadBlock (s : State) (x : Digit) (op : Word) :
    (s.loadBlock x op).state =
      { s.advance with registers := (s.loadBlock x op).state.registers } := by
  rw [loadBlock_eq]
  rfl

/-! ### The round trips -/

/-- A byte comes back from a store unless its place is reserved. -/
theorem get_loadBlock_of_storeBlock {t : State} (hindex : t.index = s.index)
    (hmemory : t.memory = (s.storeBlock x op).state.memory) (h : j ≤ x) :
    (t.loadBlock x op).state.registers.get j =
      if 0x200 ≤ (s.place j).toNat then s.registers.get j else s.memory.get (s.place j) := by
  have hplace : t.place j = s.place j := by rw [place, hindex, place]
  rw [get_loadBlock, if_pos h, hplace, hmemory, get_storeBlock_place s op h]

/-- After a load the store writes what is there already. -/
theorem memory_storeBlock_loadBlock (s : State) (x : Digit) (op : Word) :
    ((s.loadBlock x op).state.storeBlock x op).state.memory = s.memory := by
  have hindex : (s.loadBlock x op).state.index = s.index := by
    rw [state_loadBlock]
    rfl
  have hmemory : (s.loadBlock x op).state.memory = s.memory := by
    rw [state_loadBlock]
    rfl
  have hplace (j : Digit) : (s.loadBlock x op).state.place j = s.place j := by
    rw [place, hindex, place]
  refine Bank.ext fun a => ?_
  by_cases h : ∃ j ≤ x, a = s.place j
  · obtain ⟨j, hj, rfl⟩ := h
    rw [← hplace j, get_storeBlock_place _ op hj, hmemory, hplace, get_loadBlock, if_pos hj]
    exact ite_self _
  · rw [get_storeBlock_of_ne, hmemory]
    intro j hj ha
    exact h ⟨j, hj, ha.trans (hplace j)⟩

/-- **Block transfers and their round trips.** The places of the registers differ from each other.
Storing registers 0 to `x` puts each of them to its place, if that is not reserved, and changes no
other byte; loading them takes each from its place and changes no other register. Neither fails,
and nothing else changes, but that the next instruction comes after it. What has been stored
therefore comes back from a load, whatever has happened to the registers in between, except for the
bytes of the reserved area, which stay as they were; and a store after a load changes no byte of
memory. -/
theorem block_transfer (s : State) (x : Digit) (op : Word) :
    (∀ j k, s.place j = s.place k → j = k) ∧
      ((s.storeBlock x op).fault = none ∧
        (∀ j ≤ x, 0x200 ≤ (s.place j).toNat →
          (s.storeBlock x op).state.memory.get (s.place j) = s.registers.get j) ∧
        (∀ a, (∀ j ≤ x, a = s.place j → a.toNat < 0x200) →
          (s.storeBlock x op).state.memory.get a = s.memory.get a) ∧
        (s.storeBlock x op).state =
          { s.advance with memory := (s.storeBlock x op).state.memory }) ∧
      ((s.loadBlock x op).fault = none ∧
        (∀ j ≤ x, (s.loadBlock x op).state.registers.get j = s.memory.get (s.place j)) ∧
        (∀ j, ¬ j ≤ x → (s.loadBlock x op).state.registers.get j = s.registers.get j) ∧
        (s.loadBlock x op).state =
          { s.advance with registers := (s.loadBlock x op).state.registers }) ∧
      (∀ t : State, t.index = s.index → t.memory = (s.storeBlock x op).state.memory → ∀ j ≤ x,
        (t.loadBlock x op).state.registers.get j =
          if 0x200 ≤ (s.place j).toNat then s.registers.get j else s.memory.get (s.place j)) ∧
      ((s.loadBlock x op).state.storeBlock x op).state.memory = s.memory := by
  refine ⟨fun j k => place_injective, ⟨?_, ?_, ?_, state_storeBlock s x op⟩,
    ⟨?_, ?_, ?_, state_loadBlock s x op⟩, ?_, memory_storeBlock_loadBlock s x op⟩
  · rw [storeBlock_eq]
    rfl
  · intro j hj ha
    rw [get_storeBlock_place s op hj, if_pos ha]
  · intro a ha
    by_cases h : ∃ j ≤ x, a = s.place j
    · obtain ⟨j, hj, rfl⟩ := h
      rw [get_storeBlock_place s op hj, if_neg (Nat.not_le.2 (ha j hj rfl))]
    · refine get_storeBlock_of_ne s op fun j hj hne => ?_
      exact h ⟨j, hj, hne⟩
  · rw [loadBlock_eq]
    rfl
  · intro j hj
    rw [get_loadBlock, if_pos hj]
  · intro j hj
    rw [get_loadBlock, if_neg hj]
  · intro t hindex hmemory j hj
    exact get_loadBlock_of_storeBlock hindex hmemory hj

end State

end ChipEight
