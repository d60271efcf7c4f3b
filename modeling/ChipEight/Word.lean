/-!
# Words and their fields

The machine handles four sizes of numbers, all of them bit vectors, so that every sum wraps at
the width of its operands.

* `Byte`, `Word` : a memory cell, and the contents of a wide register or an instruction;
* `Address` : a place in memory, 12 bits;
* `Digit` : a hexadecimal digit; it names a register or a key;
* `Word.family`, `Word.x`, `Word.y`, `Word.n`, `Word.kk`, `Word.nnn` : the fields of an
  instruction word, under the names that instruction tables give them;
* `wordCount`, `allWords` : the words of a width, counted and in ascending order.
-/

namespace ChipEight

/-- A memory cell or a register. -/
abbrev Byte := BitVec 8

/-- An instruction, or the contents of the program counter or of the index register. -/
abbrev Word := BitVec 16

/-- A place in memory. -/
abbrev Address := BitVec 12

/-- A hexadecimal digit, the name of a register or of a key. -/
abbrev Digit := BitVec 4

/-- The byte that stands for a truth value. -/
def Byte.ofBool (b : Bool) : Byte := if b then 1 else 0

/-- The number of words of `w` bits. -/
def wordCount (w : Nat) : Nat := Nat.pow 2 w

theorem toNat_lt_wordCount {w : Nat} (a : BitVec w) : a.toNat < wordCount w := a.isLt

/-- One word is `k` behind another one, round the end, if adding `k` to that one gives it. -/
theorem toNat_sub_eq_iff {w : Nat} {a c : BitVec w} {k : Nat} (h : k < wordCount w) :
    (c - a).toNat = k ↔ c.toNat = (a.toNat + k) % wordCount w := by
  constructor
  · intro hk
    calc c.toNat
        = (a + (c - a)).toNat := by rw [BitVec.add_comm, BitVec.sub_add_cancel]
      _ = (a.toNat + k) % wordCount w := by rw [BitVec.toNat_add, hk]; rfl
  · intro hk
    have hc : c = a + BitVec.ofNat w k := by
      refine BitVec.eq_of_toNat_eq ?_
      rw [hk, BitVec.toNat_add, BitVec.toNat_ofNat, Nat.add_mod_mod]
      rfl
    rw [hc, BitVec.add_comm, BitVec.add_sub_cancel, BitVec.toNat_ofNat]
    exact Nat.mod_eq_of_lt h

/-- All words of `w` bits, in ascending order. -/
def allWords (w : Nat) : List (BitVec w) := (List.range (wordCount w)).map (BitVec.ofNat w)

theorem mem_allWords {w : Nat} (a : BitVec w) : a ∈ allWords w :=
  List.mem_map.2 ⟨a.toNat, List.mem_range.2 (toNat_lt_wordCount a), by simp⟩

/-- Searching all words finds the least one that there is. -/
theorem find?_allWords_eq_some {w : Nat} {p : BitVec w → Bool} {a : BitVec w} :
    (allWords w).find? p = some a ↔ p a = true ∧ ∀ b, p b = true → a ≤ b := by
  rw [allWords, List.find?_map, Option.map_eq_some_iff]
  constructor
  · rintro ⟨i, hi, rfl⟩
    obtain ⟨hp, hlt, hmin⟩ := List.find?_range_eq_some.1 hi
    refine ⟨hp, fun b hb => ?_⟩
    have hi : (BitVec.ofNat w i).toNat = i := Nat.mod_eq_of_lt (List.mem_range.1 hlt)
    rw [BitVec.le_def, hi]
    refine Nat.le_of_not_lt fun hlt => ?_
    have hn := hmin b.toNat hlt
    simp [hb] at hn
  · rintro ⟨hp, hmin⟩
    refine ⟨a.toNat, List.find?_range_eq_some.2 ⟨?_, ?_, fun j hj => ?_⟩, by simp⟩
    · simpa using hp
    · exact List.mem_range.2 (toNat_lt_wordCount a)
    · have hj' : (BitVec.ofNat w j).toNat = j :=
        Nat.mod_eq_of_lt (Nat.lt_trans hj (toNat_lt_wordCount a))
      have hn : ¬ p (BitVec.ofNat w j) = true := fun hb => by
        have := BitVec.le_def.1 (hmin _ hb)
        omega
      simpa using hn

theorem find?_allWords_eq_none {w : Nat} {p : BitVec w → Bool} :
    (allWords w).find? p = none ↔ ∀ a, p a = false := by
  simp [List.find?_eq_none, mem_allWords]

namespace Word

variable (w : Word)

/-- The leading digit, which selects a family of instructions. -/
def family : Digit := w.extractLsb' 12 4

/-- The second digit, the first register operand. -/
def x : Digit := w.extractLsb' 8 4

/-- The third digit, the second register operand. -/
def y : Digit := w.extractLsb' 4 4

/-- The last digit. -/
def n : Digit := w.extractLsb' 0 4

/-- The low byte. -/
def kk : Byte := w.extractLsb' 0 8

/-- The low twelve bits. -/
def nnn : Address := w.extractLsb' 0 12

/-- The place in memory that a wide register points to: its low twelve bits. -/
def address : Address := w.setWidth 12

theorem toNat_address : (w.address.setWidth 16 : Word).toNat = w.toNat % 0x1000 := by
  simp only [address, BitVec.toNat_setWidth]
  omega

theorem address_add (v w : Word) : (v + w).address = v.address + w.address :=
  BitVec.setWidth_add v w (by decide)

/-- A wide register that has been moved on by `k` points `k` places further. -/
theorem address_offset (k : Nat) :
    (w + BitVec.ofNat 16 k).address = w.address + BitVec.ofNat 12 k := by
  have hk : address (BitVec.ofNat 16 k) = BitVec.ofNat 12 k := by
    refine BitVec.eq_of_toNat_eq ?_
    rw [address, BitVec.toNat_setWidth, BitVec.toNat_ofNat, BitVec.toNat_ofNat]
    omega
  rw [address_add, hk]

theorem address_add_ofNat (k : Nat) :
    w.address + BitVec.ofNat 12 k = BitVec.ofNat 12 (w.toNat + k) := by
  refine BitVec.eq_of_toNat_eq ?_
  simp only [address, BitVec.toNat_add, BitVec.toNat_setWidth, BitVec.toNat_ofNat]
  omega

/-- A place lies `k` behind the one that a wide register points to if it is `k` further, round the
end of memory. -/
theorem toNat_sub_address_eq_iff {w : Word} {a : Address} {k : Nat} (h : k < 0x1000) :
    (a - w.address).toNat = k ↔ a.toNat = (w.toNat + k) % 0x1000 := by
  have haddress : w.address.toNat = w.toNat % 0x1000 := BitVec.toNat_setWidth ..
  have hcount : wordCount 12 = 0x1000 := rfl
  rw [toNat_sub_eq_iff h, haddress, hcount, Nat.mod_add_mod]

/-- The word whose big-endian bytes are `high` and `low`. -/
def ofBytes (high low : Byte) : Word := high ++ low

theorem toNat_ofBytes (high low : Byte) :
    (ofBytes high low).toNat = 0x100 * high.toNat + low.toNat := by
  rw [ofBytes, BitVec.toNat_append, ← Nat.shiftLeft_add_eq_or_of_lt low.isLt, Nat.shiftLeft_eq,
    Nat.mul_comm]

theorem append_digits : (family w ++ x w ++ y w ++ n w : BitVec (4 + 4 + 4 + 4)) = w := by
  simp only [family, x, y, n]
  rw [BitVec.extractLsb'_append_extractLsb'_eq_extractLsb' (by rfl),
    BitVec.extractLsb'_append_extractLsb'_eq_extractLsb' (by rfl),
    BitVec.extractLsb'_append_extractLsb'_eq_extractLsb' (by rfl)]
  exact BitVec.extractLsb'_eq_self

end Word

end ChipEight
