import ChipEight.Bank
import ChipEight.Layout

/-!
# Memory

One byte for each address. The bytes below `programStart` are reserved: they hold the font and
then zeros, and what a program stores there is dropped. Addresses wrap at the end of memory, so
that a transfer that starts near the end goes on at address 0.

* `Memory.initial`, `Memory.load` : memory with the font, and with a program;
* `Memory.read`, `Memory.wordAt` : a run of bytes, and a big-endian word;
* `Memory.isReserved`, `Memory.store`, `Memory.storeAll` : what a program may change;
* `Memory.cells` : consecutive addresses paired with the bytes meant for them.
-/

namespace ChipEight

/-- One byte for each address. -/
abbrev Memory := Bank 12 Byte

namespace Memory

/-- The font, and zeros above it. -/
def initial : Memory := Bank.ofFn fun a => font.getD a.toNat 0

variable (m : Memory)

/-- Memory with a program copied to `programStart`; all other bytes stay as they are. -/
def load (rom : List Byte) : Memory :=
  let bytes := rom.toArray
  Bank.ofFn fun a =>
    if programStart ≤ a then bytes.getD (a.toNat - programStart.toNat) (m.get a) else m.get a

/-- The `count` bytes from `start` on. -/
def read (start : Address) (count : Nat) : List Byte :=
  (List.range count).map fun k => m.get (start + BitVec.ofNat 12 k)

/-- The word whose bytes are at `a` and after it. -/
def wordAt (a : Address) : Word := Word.ofBytes (m.get a) (m.get (a + 1))

/-- Whether programs are kept from changing the byte at `a`. -/
def isReserved (a : Address) : Bool := a < programStart

/-- Memory after a program has stored `v` at `a`: unchanged if `a` is reserved. -/
def store (a : Address) (v : Byte) : Memory := if isReserved a then m else m.set a v

/-- Consecutive addresses from `start` on, each with its byte. -/
def cells (start : Address) : List Byte → List (Address × Byte)
  | [] => []
  | v :: vs => (start, v) :: cells (start + 1) vs

/-- Memory after a program has stored one byte after the other. -/
def storeAll (stores : List (Address × Byte)) : Memory :=
  stores.foldl (fun m c => m.store c.1 c.2) m

/-! ### What loading and storing do to a byte -/

theorem get_initial (a : Address) : initial.get a = font.getD a.toNat 0 := by
  simp [initial]

theorem get_load (rom : List Byte) (a : Address) :
    (m.load rom).get a =
      if programStart ≤ a then rom.getD (a.toNat - programStart.toNat) (m.get a)
      else m.get a := by
  simp [load]

theorem get_store (a c : Address) (v : Byte) :
    (m.store a v).get c = if isReserved a = false ∧ a = c then v else m.get c := by
  cases h : isReserved a <;> simp [store, h, Bank.get_set]

theorem isReserved_iff {a : Address} : isReserved a = true ↔ a.toNat < 0x200 := by
  rw [isReserved, decide_eq_true_eq, BitVec.lt_def]
  rfl

/-- The font stands at the beginning of a new memory. -/
theorem read_initial : initial.read 0 font.length = font := by
  simp only [read, get_initial]
  decide

theorem read_succ (a : Address) (k : Nat) :
    m.read a (k + 1) = m.read a k ++ [m.get (a + BitVec.ofNat 12 k)] := by
  rw [read, List.range_succ, List.map_append]
  rfl

theorem cells_concat (start : Address) (bytes : List Byte) (v : Byte) :
    cells start (bytes ++ [v]) =
      cells start bytes ++ [(start + BitVec.ofNat 12 bytes.length, v)] := by
  induction bytes generalizing start with
  | nil => simp [cells]
  | cons u bytes ih =>
    have hnext : start + 1 + BitVec.ofNat 12 bytes.length =
        start + BitVec.ofNat 12 (u :: bytes).length := by
      rw [BitVec.add_assoc, BitVec.add_comm 1, List.length_cons, BitVec.ofNat_add]
      rfl
    rw [List.cons_append, cells, cells, ih, hnext]
    rfl

theorem storeAll_concat (stores : List (Address × Byte)) (c : Address × Byte) :
    m.storeAll (stores ++ [c]) = (m.storeAll stores).store c.1 c.2 := by
  rw [storeAll, List.foldl_append]
  rfl

theorem get_storeAll_of_isReserved (stores : List (Address × Byte)) {a : Address}
    (h : isReserved a = true) : (m.storeAll stores).get a = m.get a := by
  induction stores generalizing m with
  | nil => rfl
  | cons c stores ih =>
    refine (ih (m.store c.1 c.2)).trans ?_
    rw [get_store, if_neg]
    rintro ⟨hc, rfl⟩
    simp [h] at hc

/-- Loading leaves the reserved bytes as they are. -/
theorem get_load_of_isReserved (rom : List Byte) {a : Address} (h : isReserved a = true) :
    (m.load rom).get a = m.get a := by
  rw [get_load, if_neg]
  simpa [isReserved, BitVec.not_le] using h

theorem get_load_of_ne {rom : List Byte} {a : Address}
    (h : ∀ k < rom.length, a.toNat ≠ 0x200 + k) : (m.load rom).get a = m.get a := by
  rw [get_load]
  split
  · rename_i hstart
    have hle : 0x200 ≤ a.toNat := BitVec.le_def.1 hstart
    have hlen : rom.length ≤ a.toNat - 0x200 := by
      refine Nat.le_of_not_lt fun hk => h _ hk ?_
      omega
    rw [List.getD_eq_getElem?_getD]
    exact congrArg (Option.getD · _) (List.getElem?_eq_none hlen)
  · rfl

theorem get_load_ofNat (rom : List Byte) {k : Nat} (h : 0x200 + k < 0x1000) :
    (m.load rom).get (BitVec.ofNat 12 (0x200 + k)) =
      rom.getD k (m.get (BitVec.ofNat 12 (0x200 + k))) := by
  have ha : (BitVec.ofNat 12 (0x200 + k)).toNat = 0x200 + k := by
    rw [BitVec.toNat_ofNat, Nat.mod_eq_of_lt h]
  have hstart : programStart ≤ BitVec.ofNat 12 (0x200 + k) := by
    rw [BitVec.le_def, ha]
    exact Nat.le_add_right 0x200 k
  have hk : 0x200 + k - programStart.toNat = k := Nat.add_sub_cancel_left 0x200 k
  rw [get_load, if_pos hstart, ha, hk]

/-- A new memory holds a program with zeros behind it. -/
theorem get_load_initial (rom : List Byte) {j : Nat} (h : 0x200 + j < 0x1000) :
    (initial.load rom).get (BitVec.ofNat 12 (0x200 + j)) = rom.getD j 0 := by
  -- the font is shorter than the reserved part of memory
  have hfont : font.length ≤ 0x200 + j := Nat.le_trans (by decide) (Nat.le_add_right 0x200 j)
  rw [get_load_ofNat _ _ h, get_initial, BitVec.toNat_ofNat, Nat.mod_eq_of_lt h,
    List.getD_eq_getElem?_getD (l := font), List.getElem?_eq_none hfont, Option.getD_none]

end Memory

end ChipEight
