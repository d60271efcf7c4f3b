import ChipEight.Bank

/-!
# Checked operations

What a machine with words of a fixed width has to check when it computes: a sum, a difference or a
product has to fit the width, a word is shifted or rotated by less than its width, and a cell that
is read or written has to exist. Each operation gives nothing if its check fails. If it passes, the
result is that of the operation without the check.

* `add?`, `sub?`, `mul?` : arithmetic that must not wrap;
* `shiftLeft?`, `shiftRight?`, `rotateRight?` : shifts and rotations;
* `Bank.get?`, `Bank.set?` : the cell with a number;
* `Fields`, `Word.fields?` : the fields of an instruction word, taken out by shifts and masks;
* `foldlM_range_some` : what a loop keeps whose checks all pass.
-/

namespace ChipEight

variable {w : Nat}

/-! ### Arithmetic, shifts and rotations -/

/-- The sum, if it fits the width. -/
def add? (a b : BitVec w) : Option (BitVec w) :=
  if a.toNat + b.toNat < wordCount w then some (a + b) else none

/-- The difference, unless it is below zero. -/
def sub? (a b : BitVec w) : Option (BitVec w) := if b.toNat ≤ a.toNat then some (a - b) else none

/-- The product, if it fits the width. -/
def mul? (a b : BitVec w) : Option (BitVec w) :=
  if a.toNat * b.toNat < wordCount w then some (a * b) else none

/-- The word shifted left by less than its width. -/
def shiftLeft? (a : BitVec w) (k : Nat) : Option (BitVec w) :=
  if k < w then some (a <<< k) else none

/-- The word shifted right by less than its width. -/
def shiftRight? (a : BitVec w) (k : Nat) : Option (BitVec w) :=
  if k < w then some (a >>> k) else none

/-- The word rotated to the right by less than its width. -/
def rotateRight? (a : BitVec w) (k : Nat) : Option (BitVec w) :=
  if k < w then some (a.rotateRight k) else none

theorem add?_eq_some {a b : BitVec w} (h : a.toNat + b.toNat < wordCount w) :
    add? a b = some (a + b) :=
  if_pos h

theorem toNat_of_add? {a b c : BitVec w} (h : add? a b = some c) :
    c.toNat = a.toNat + b.toNat := by
  unfold add? at h
  split at h
  next hlt =>
    cases h
    exact BitVec.toNat_add_of_lt hlt
  next => cases h

theorem sub?_eq_some {a b : BitVec w} (h : b.toNat ≤ a.toNat) : sub? a b = some (a - b) := if_pos h

theorem sub?_one {a : Byte} (h : a ≠ 0) :
    sub? a 1 = some (a - 1) ∧ (a - 1).toNat = a.toNat - 1 := by
  have hle : (1 : Byte).toNat ≤ a.toNat := by
    have hne : a.toNat ≠ 0 := fun hz => h (BitVec.eq_of_toNat_eq hz)
    exact Nat.one_le_iff_ne_zero.2 hne
  exact ⟨sub?_eq_some hle, BitVec.toNat_sub_of_le hle⟩

theorem mul?_eq_some {a b : BitVec w} (h : a.toNat * b.toNat < wordCount w) :
    mul? a b = some (a * b) :=
  if_pos h

theorem shiftLeft?_eq_some {a : BitVec w} {k : Nat} (h : k < w) :
    shiftLeft? a k = some (a <<< k) :=
  if_pos h

theorem shiftRight?_eq_some {a : BitVec w} {k : Nat} (h : k < w) :
    shiftRight? a k = some (a >>> k) :=
  if_pos h

theorem rotateRight?_eq_some {a : BitVec w} {k : Nat} (h : k < w) :
    rotateRight? a k = some (a.rotateRight k) :=
  if_pos h

/-! ### Cells -/

namespace Bank

variable {α : Type} (b : Bank w α)

/-- The cell with number `k`, if there is one. -/
def get? (k : Nat) : Option α := b.cells[k]?

/-- The bank with `v` in the cell with number `k`, if there is one. -/
def set? (k : Nat) (v : α) : Option (Bank w α) :=
  if h : k < wordCount w then some ⟨b.cells.set k v h⟩ else none

theorem get?_eq_some {k : Nat} (h : k < wordCount w) :
    b.get? k = some (b.get (BitVec.ofNat w k)) := by
  rw [get?, get_ofNat b h]
  exact Vector.getElem?_eq_getElem h

theorem get?_toNat (a : BitVec w) : b.get? a.toNat = some (b.get a) := by
  rw [get?_eq_some b (toNat_lt_wordCount a), BitVec.ofNat_toNat, BitVec.setWidth_eq]

theorem get?_isSome_iff {k : Nat} : (b.get? k).isSome = true ↔ k < wordCount w := by
  rw [get?, isSome_getElem?]

theorem set?_toNat (a : BitVec w) (v : α) : b.set? a.toNat v = some (b.set a v) :=
  dif_pos (toNat_lt_wordCount a)

theorem set?_eq_some {k : Nat} (h : k < wordCount w) (v : α) :
    b.set? k v = some (b.set (BitVec.ofNat w k) v) := by
  have hk : (BitVec.ofNat w k).toNat = k := Nat.mod_eq_of_lt h
  rw [← set?_toNat, hk]

end Bank

/-! ### The fields of an instruction word -/

theorem toNat_and_mask (a : BitVec w) (k : Nat) (h : k ≤ w) :
    (a &&& BitVec.ofNat w (wordCount k - 1)).toNat = a.toNat % wordCount k := by
  have hmask : wordCount k - 1 < wordCount w :=
    Nat.lt_of_lt_of_le (Nat.sub_lt (Nat.two_pow_pos k) Nat.one_pos)
      (Nat.pow_le_pow_right (by decide) h)
  calc (a &&& BitVec.ofNat w (wordCount k - 1)).toNat
      = a.toNat &&& (wordCount k - 1) % wordCount w := by
        rw [BitVec.toNat_and, BitVec.toNat_ofNat]
        rfl
    _ = a.toNat &&& (wordCount k - 1) := by rw [Nat.mod_eq_of_lt hmask]
    _ = a.toNat % wordCount k := Nat.and_two_pow_sub_one_eq_mod a.toNat k

/-- The fields of an instruction word, the digits and the low byte as bytes and the address as a
word. -/
structure Fields where
  /-- The leading digit. -/
  family : Byte
  /-- The second digit. -/
  x : Byte
  /-- The third digit. -/
  y : Byte
  /-- The last digit. -/
  n : Byte
  /-- The low byte. -/
  kk : Byte
  /-- The low twelve bits. -/
  nnn : Word

namespace Word

/-- The fields of an instruction word. -/
def fields? (w : Word) : Option Fields := do
  let family ← shiftRight? w 12
  let x ← shiftRight? w 8
  let y ← shiftRight? w 4
  some
    { family := family.setWidth 8
      x := (x &&& 0xF).setWidth 8
      y := (y &&& 0xF).setWidth 8
      n := (w &&& 0xF).setWidth 8
      kk := (w &&& 0xFF).setWidth 8
      nnn := w &&& 0x0FFF }

variable (w : Word)

/-- The fields of an instruction word without the checks. -/
def fields : Fields where
  family := w.family.setWidth 8
  x := w.x.setWidth 8
  y := w.y.setWidth 8
  n := w.n.setWidth 8
  kk := w.kk
  nnn := w.nnn.setWidth 16

theorem setWidth_family : (w.family.setWidth 8 : Byte) = (w >>> 12).setWidth 8 := by
  refine BitVec.eq_of_toNat_eq ?_
  have := w.isLt
  simp only [family, BitVec.toNat_setWidth, BitVec.extractLsb'_toNat, BitVec.toNat_ushiftRight,
    Nat.shiftRight_eq_div_pow]
  omega

theorem setWidth_extractLsb' (k : Nat) :
    ((w.extractLsb' k 4).setWidth 8 : Byte) = (w >>> k &&& 0xF).setWidth 8 := by
  have hmask : (w >>> k &&& 0xF).toNat = (w >>> k).toNat % 16 :=
    toNat_and_mask _ 4 (by decide)
  refine BitVec.eq_of_toNat_eq ?_
  rw [BitVec.toNat_setWidth, BitVec.toNat_setWidth, hmask, BitVec.extractLsb'_toNat,
    BitVec.toNat_ushiftRight]

theorem kk_eq : w.kk = (w &&& 0xFF).setWidth 8 := by
  have hmask : (w &&& 0xFF).toNat = w.toNat % 256 := toNat_and_mask w 8 (by decide)
  refine BitVec.eq_of_toNat_eq ?_
  rw [kk, BitVec.extractLsb'_toNat, BitVec.toNat_setWidth, hmask, Nat.shiftRight_zero,
    Nat.mod_mod]

theorem setWidth_address : (w.address.setWidth 16 : Word) = w &&& 0x0FFF := by
  have hmask : (w &&& 0x0FFF).toNat = w.toNat % 4096 := toNat_and_mask w 12 (by decide)
  refine BitVec.eq_of_toNat_eq ?_
  rw [toNat_address, hmask]

theorem nnn_eq_address : w.nnn = w.address := by
  refine BitVec.eq_of_toNat_eq ?_
  rw [nnn, address, BitVec.extractLsb'_toNat, BitVec.toNat_setWidth, Nat.shiftRight_zero]

/-- The shifts and masks leave the fields, and no shift is too far. -/
theorem fields?_eq_some : w.fields? = some w.fields := by
  have hn : (w.n.setWidth 8 : Byte) = (w &&& 0xF).setWidth 8 := setWidth_extractLsb' w 0
  rw [fields?, shiftRight?_eq_some (by decide), shiftRight?_eq_some (by decide),
    shiftRight?_eq_some (by decide), fields, setWidth_family, x, y, setWidth_extractLsb',
    setWidth_extractLsb', hn, kk_eq, nnn_eq_address, setWidth_address]
  rfl

end Word

/-! ### Loops -/

/-- What each pass of a loop keeps, with its checks passed, holds at the end of the loop. -/
theorem foldlM_range_some {α : Type} {f : α → Nat → Option α} {P : Nat → α → Prop} {a : α}
    (h₀ : P 0 a) (n : Nat) (h : ∀ k < n, ∀ a, P k a → ∃ b, f a k = some b ∧ P (k + 1) b) :
    ∃ b, (List.range n).foldlM f a = some b ∧ P n b := by
  induction n with
  | zero => exact ⟨a, rfl, h₀⟩
  | succ n ih =>
    obtain ⟨b, hb, hP⟩ := ih fun k hk => h k (Nat.lt_succ_of_lt hk)
    obtain ⟨c, hc, hP'⟩ := h n (Nat.lt_succ_self n) b hP
    refine ⟨c, ?_, hP'⟩
    rw [List.range_succ, List.foldlM_append, hb]
    simp [hc]

end ChipEight
