import ChipEight.Proofs.Effects
import ChipEight.Proofs.InstructionSet
import Mathlib.Tactic.ByContra

/-!
# A draw, pixel by pixel

A draw works on rows of 64 pixels at a time: it rotates each byte of the sprite to its column and
inverts the pixels of the row that are set in the result. Seen pixel by pixel, it inverts the ones
that lie as far to the right of the column as a bit that is set lies from the left end of its byte,
and as far below the top as that byte lies behind the index register. All three distances are taken
round the end: of the row, of the display and of memory. The flag tells whether one of these pixels
was lit before.

* `Sprite.getMsbD_row`, `Sprite.getMsbD_cover_iff` : the pixels that a sprite covers;
* `Frame.pixel_draw`, `Frame.collides_iff` : what inverting them does, and when a lit one goes out;
* `State.Covers` : whether a draw inverts a pixel;
* `State.draw_pixels` : the result.
-/

namespace ChipEight

namespace Sprite

variable {column c : BitVec 6} {top r : BitVec 5} {sprite : List Byte}

/-- Rotating a byte to its column takes each bit as far to the right of the column as it was from
the left end of the byte. -/
theorem getMsbD_row (column c : BitVec 6) (b : Byte) :
    (row column b).getMsbD c.toNat = b.getMsbD (c - column).toNat := by
  have hbyte (i : Nat) : (b ++ (0 : BitVec 56) : BitVec (8 + 56)).getMsbD i = b.getMsbD i := by
    rw [BitVec.getMsbD_append]
    by_cases hi : 8 ≤ i
    · simp [hi]
    · simp [hi]
  have hc : c.toNat < 64 := c.isLt
  have hcolumn : column.toNat < 64 := column.isLt
  rw [row, BitVec.getMsbD_rotateRight_of_lt hcolumn, BitVec.toNat_sub,
    Nat.mod_eq_of_lt hcolumn]
  by_cases h : c.toNat < column.toNat
  · -- the pixel is left of the column: the bits of the byte have come round the end of the row
    simp only [hc, h, hbyte, decide_true, Bool.true_and, ↓reduceIte]
    congr 1
    omega
  · simp only [hc, h, hbyte, decide_true, Bool.true_and, ↓reduceIte]
    congr 1
    omega

/-- The byte of the sprite that falls on a row decides which pixels of the row are covered. -/
theorem getMsbD_cover_iff :
    (cover column top sprite r).getMsbD c.toNat = true ↔
      ∃ b, sprite[(r - top).toNat]? = some b ∧ b.getMsbD (c - column).toNat = true := by
  unfold cover
  cases sprite[(r - top).toNat]? with
  | none => simp
  | some b => simp [getMsbD_row]

end Sprite

theorem Byte.ofBool_eq_one_iff {b : Bool} : Byte.ofBool b = 1 ↔ b = true := by
  revert b
  decide

theorem Row.ne_zero_iff {row : Row} : row ≠ 0 ↔ ∃ c : BitVec 6, row.getMsbD c.toNat = true := by
  constructor
  · intro h
    by_contra hc
    refine h (BitVec.eq_of_getMsbD_eq fun i hi => ?_)
    have hi' : (BitVec.ofNat 6 i).toNat = i := Nat.mod_eq_of_lt hi
    have hfalse : row.getMsbD i = false := by
      rw [← hi']
      exact Bool.eq_false_iff.2 fun ht => hc ⟨_, ht⟩
    rw [hfalse]
    simp
  · rintro ⟨c, hc⟩ rfl
    simp at hc

namespace Frame

variable {f : Frame} {column c : BitVec 6} {top r : BitVec 5} {sprite : List Byte}

theorem pixel_draw :
    (f.draw column top sprite).pixel c r =
      (f.pixel c r ^^ (Sprite.cover column top sprite r).getMsbD c.toNat) := by
  rw [pixel, draw, Bank.get_ofFn, BitVec.getMsbD_xor, pixel]

theorem pixel_draw_ne_iff :
    (f.draw column top sprite).pixel c r ≠ f.pixel c r ↔
      (Sprite.cover column top sprite r).getMsbD c.toNat = true := by
  rw [pixel_draw]
  cases f.pixel c r <;> simp

theorem collides_iff :
    f.collides column top sprite = true ↔
      ∃ c r, f.pixel c r = true ∧ (Sprite.cover column top sprite r).getMsbD c.toNat = true := by
  have hrow (r : BitVec 5) : (f.get r &&& Sprite.cover column top sprite r != 0) = true ↔
      ∃ c, f.pixel c r = true ∧ (Sprite.cover column top sprite r).getMsbD c.toNat = true := by
    rw [bne_iff_ne, Row.ne_zero_iff]
    simp only [BitVec.getMsbD_and, Bool.and_eq_true, pixel]
  rw [collides, List.any_eq_true]
  simp only [hrow, mem_allWords, true_and]
  exact exists_comm

end Frame

namespace State

variable {s : State} {x y n : Digit} {c : BitVec 6} {r : BitVec 5}

/-- Whether the draw of `n` rows with its coordinates in registers `x` and `y` covers the pixel in
column `c` of row `r`: there is a bit `j` from the left in the byte `b` of the sprite that falls on
it. -/
def Covers (s : State) (x y n : Digit) (c : BitVec 6) (r : BitVec 5) : Prop :=
  ∃ b < n.toNat, ∃ j < 8,
    r.toNat = ((s.registers.get y).toNat + b) % 32 ∧
      c.toNat = ((s.registers.get x).toNat + j) % 64 ∧
      (s.memory.get (BitVec.ofNat 12 (s.index.toNat + b))).getLsbD (7 - j) = true

theorem getElem?_sprite (k : Nat) :
    (s.sprite n)[k]? =
      if k < n.toNat then some (s.memory.get (BitVec.ofNat 12 (s.index.toNat + k))) else none := by
  rw [sprite, Memory.read, List.getElem?_map, ← Word.address_add_ofNat]
  by_cases hk : k < n.toNat
  · simp [hk]
  · simp [hk]

/-- The distance from the place that a register gives, taken round the end. -/
theorem toNat_sub_setWidth_eq_iff {w : Nat} {v : Byte} {a : BitVec w} {k : Nat}
    (hk : k < wordCount w) :
    (a - v.setWidth w).toNat = k ↔ a.toNat = (v.toNat + k) % wordCount w := by
  have hv : (v.setWidth w).toNat = v.toNat % wordCount w := BitVec.toNat_setWidth ..
  rw [toNat_sub_eq_iff hk, hv, Nat.mod_add_mod]

theorem getMsbD_cover_sprite_iff :
    (Sprite.cover ((s.registers.get x).setWidth 6) ((s.registers.get y).setWidth 5) (s.sprite n)
      r).getMsbD c.toNat = true ↔ s.Covers x y n c r := by
  rw [Sprite.getMsbD_cover_iff]
  constructor
  · rintro ⟨byte, hbyte, hbit⟩
    rw [getElem?_sprite] at hbyte
    split at hbyte
    case isFalse => cases hbyte
    case isTrue hb =>
      obtain rfl := Option.some.inj hbyte
      rw [BitVec.getMsbD_eq_getLsbD, Bool.and_eq_true, decide_eq_true_eq] at hbit
      obtain ⟨hj, hbit⟩ := hbit
      exact ⟨_, hb, _, hj, (toNat_sub_setWidth_eq_iff (toNat_lt_wordCount _)).1 rfl,
        (toNat_sub_setWidth_eq_iff (toNat_lt_wordCount _)).1 rfl, hbit⟩
  · rintro ⟨b, hb, j, hj, hr, hc, hbit⟩
    have hb32 : b < 32 := by
      have hn : n.toNat < 16 := n.isLt
      omega
    have hj64 : j < 64 := by omega
    rw [(toNat_sub_setWidth_eq_iff hb32).2 hr, (toNat_sub_setWidth_eq_iff hj64).2 hc]
    refine ⟨_, by rw [getElem?_sprite, if_pos hb], ?_⟩
    rw [BitVec.getMsbD_eq_getLsbD, hbit]
    simp [hj]

theorem perform_draw (s : State) (x y n : Digit) (op : Word) :
    s.perform (Word.ofDigits 0xD x y n) op = .done (s.advance.draw x y n) := by
  have hdecode : Instruction.decode (Word.ofDigits 0xD x y n) = .draw x y n := by
    rw [Instruction.decode_of_draw (Word.family_ofDigits ..)]
    simp
  rw [perform, hdecode]
  rfl

theorem pixel_draw_ne_iff :
    (s.draw x y n).frame.pixel c r ≠ s.frame.pixel c r ↔ s.Covers x y n c r := by
  rw [← getMsbD_cover_sprite_iff]
  exact Frame.pixel_draw_ne_iff

theorem flag_draw :
    (s.draw x y n).registers.get flagRegister = Byte.ofBool (s.frame.collides
      ((s.registers.get x).setWidth 6) ((s.registers.get y).setWidth 5) (s.sprite n)) :=
  Bank.get_set_self ..

/-- A lit pixel goes out if the draw covers one. -/
theorem collides_sprite_iff :
    s.frame.collides ((s.registers.get x).setWidth 6) ((s.registers.get y).setWidth 5)
        (s.sprite n) = true ↔
      ∃ c r, s.frame.pixel c r = true ∧ s.Covers x y n c r := by
  rw [Frame.collides_iff]
  simp only [getMsbD_cover_sprite_iff]

/-- **A draw, pixel by pixel.** It always succeeds, and inverts the pixels that it covers and no
others. The flag register becomes 1 if one of them was lit before and 0 if not. The next
instruction comes after it, and everything else is as it was. -/
theorem draw_pixels (s : State) (x y n : Digit) (op : Word) :
    let o := s.perform (Word.ofDigits 0xD x y n) op
    o.fault = none ∧
      (∀ c r, o.state.frame.pixel c r ≠ s.frame.pixel c r ↔ s.Covers x y n c r) ∧
      (o.state.registers.get flagRegister = 1 ↔
        ∃ c r, s.frame.pixel c r = true ∧ o.state.frame.pixel c r ≠ s.frame.pixel c r) ∧
      (o.state.registers.get flagRegister = 0 ∨ o.state.registers.get flagRegister = 1) ∧
      o.state =
        { s.advance with
          frame := o.state.frame
          registers := s.registers.set flagRegister (o.state.registers.get flagRegister) } := by
  intro o
  have ho : o = .done (s.advance.draw x y n) := perform_draw s x y n op
  -- going on to the next instruction changes neither the display nor what covers it
  have hpixel (c : BitVec 6) (r : BitVec 5) :
      o.state.frame.pixel c r ≠ s.frame.pixel c r ↔ s.Covers x y n c r := by
    rw [ho]
    exact pixel_draw_ne_iff (s := s.advance)
  have hflag : o.state.registers.get flagRegister = Byte.ofBool (s.frame.collides
      ((s.registers.get x).setWidth 6) ((s.registers.get y).setWidth 5) (s.sprite n)) := by
    rw [ho]
    exact flag_draw (s := s.advance)
  refine ⟨by rw [ho]; rfl, hpixel, ?_, ?_, ?_⟩
  · simp only [hflag, hpixel, Byte.ofBool_eq_one_iff, collides_sprite_iff]
  · rw [hflag]
    cases Frame.collides _ _ _ _
    · exact .inl rfl
    · exact .inr rfl
  · rw [hflag, ho]
    rfl

end State

end ChipEight
