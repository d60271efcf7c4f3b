import ChipEight.Instruction.Decode

/-!
# From instructions to words

The inverse of decoding: each instruction is put together from the digits of its family and its
operands. Encoding what a word decodes to gives the word back, so no two words decode to the same
instruction.

* `Condition.encode`, `Arith.toDigit`, `Instruction.encode` : the word of an instruction;
* `Instruction.encode_decode`, `Instruction.decode_injective` : decoding loses nothing.
-/

namespace ChipEight

namespace Word

variable (w : Word)

theorem append_nnn : (family w ++ nnn w : BitVec (4 + 12)) = w := by
  simp only [family, nnn]
  rw [BitVec.extractLsb'_append_extractLsb'_eq_extractLsb' (by rfl)]
  exact BitVec.extractLsb'_eq_self

theorem append_kk : (family w ++ x w ++ kk w : BitVec (4 + 4 + 8)) = w := by
  simp only [family, x, kk]
  rw [BitVec.extractLsb'_append_extractLsb'_eq_extractLsb' (by rfl),
    BitVec.extractLsb'_append_extractLsb'_eq_extractLsb' (by rfl)]
  exact BitVec.extractLsb'_eq_self

/-- The word of a family with an address. -/
def ofAddress (f : Digit) (a : Address) : Word := f ++ a

/-- The word of a family with a digit and a byte. -/
def ofByte (f d : Digit) (b : Byte) : Word := f ++ d ++ b

/-- The word of four digits. -/
def ofDigits (f d e g : Digit) : Word := f ++ d ++ e ++ g

@[simp] theorem family_ofAddress (f : Digit) (a : Address) : (ofAddress f a).family = f :=
  BitVec.extractLsb'_append_eq_left

@[simp] theorem nnn_ofAddress (f : Digit) (a : Address) : (ofAddress f a).nnn = a :=
  BitVec.extractLsb'_append_eq_right

@[simp] theorem family_ofByte (f d : Digit) (b : Byte) : (ofByte f d b).family = f := by
  have h : ofByte f d b = ofAddress f (d ++ b) := BitVec.append_assoc
  rw [h, family_ofAddress]

@[simp] theorem x_ofByte (f d : Digit) (b : Byte) : (ofByte f d b).x = d := by
  have h : (ofByte f d b).x = (f ++ d).extractLsb' 0 4 :=
    BitVec.extractLsb'_append_eq_of_le (by decide)
  rw [h]
  exact BitVec.extractLsb'_append_eq_right

@[simp] theorem kk_ofByte (f d : Digit) (b : Byte) : (ofByte f d b).kk = b :=
  BitVec.extractLsb'_append_eq_right

theorem ofDigits_eq_ofByte (f d e g : Digit) : ofDigits f d e g = ofByte f d (e ++ g) :=
  BitVec.append_assoc

@[simp] theorem family_ofDigits (f d e g : Digit) : (ofDigits f d e g).family = f := by
  rw [ofDigits_eq_ofByte, family_ofByte]

@[simp] theorem x_ofDigits (f d e g : Digit) : (ofDigits f d e g).x = d := by
  rw [ofDigits_eq_ofByte, x_ofByte]

@[simp] theorem y_ofDigits (f d e g : Digit) : (ofDigits f d e g).y = e := by
  have h : (ofDigits f d e g).y = (f ++ d ++ e : BitVec (4 + 4 + 4)).extractLsb' 0 4 :=
    BitVec.extractLsb'_append_eq_of_le (by decide)
  rw [h]
  exact BitVec.extractLsb'_append_eq_right

@[simp] theorem n_ofDigits (f d e g : Digit) : (ofDigits f d e g).n = g :=
  BitVec.extractLsb'_append_eq_right

variable {w}

theorem ofAddress_eq {f : Digit} (h : w.family = f) : ofAddress f w.nnn = w :=
  h ▸ append_nnn w

theorem ofByte_eq {f : Digit} {b : Byte} (h : w.family = f) (hb : w.kk = b) :
    ofByte f w.x b = w :=
  h ▸ hb ▸ append_kk w

theorem ofDigits_eq {f g : Digit} (h : w.family = f) (hg : w.n = g) :
    ofDigits f w.x w.y g = w :=
  h ▸ hg ▸ append_digits w

end Word

/-- The word of a skip. -/
def Condition.encode : Condition → Word
  | byteIs x kk => Word.ofByte 0x3 x kk
  | byteIsNot x kk => Word.ofByte 0x4 x kk
  | same x y => Word.ofDigits 0x5 x y 0x0
  | differ x y => Word.ofDigits 0x9 x y 0x0
  | keyDown x => Word.ofByte 0xE x 0x9E
  | keyUp x => Word.ofByte 0xE x 0xA1

/-- The digit that selects a function of two registers. -/
def Arith.toDigit : Arith → Digit
  | copy => 0x0
  | or => 0x1
  | and => 0x2
  | xor => 0x3
  | add => 0x4
  | sub => 0x5
  | shiftRight => 0x6
  | subFrom => 0x7
  | shiftLeft => 0xE

theorem Arith.eq_toDigit {d : Digit} {f : Arith} (h : ofDigit? d = some f) : d = f.toDigit := by
  revert d f
  decide

namespace Instruction

/-- The word of an instruction. -/
def encode : Instruction → Word
  | clear => 0x00E0
  | ret => 0x00EE
  | sys nnn => Word.ofAddress 0x0 nnn
  | jump nnn => Word.ofAddress 0x1 nnn
  | call nnn => Word.ofAddress 0x2 nnn
  | skip c => c.encode
  | loadByte x kk => Word.ofByte 0x6 x kk
  | addByte x kk => Word.ofByte 0x7 x kk
  | arith f x y => Word.ofDigits 0x8 x y f.toDigit
  | loadIndex nnn => Word.ofAddress 0xA nnn
  | jumpOffset nnn => Word.ofAddress 0xB nnn
  | random x kk => Word.ofByte 0xC x kk
  | draw x y n => Word.ofDigits 0xD x y n
  | readDelay x => Word.ofByte 0xF x 0x07
  | awaitKey x => Word.ofByte 0xF x 0x0A
  | setDelay x => Word.ofByte 0xF x 0x15
  | setSound x => Word.ofByte 0xF x 0x18
  | addIndex x => Word.ofByte 0xF x 0x1E
  | pointGlyph x => Word.ofByte 0xF x 0x29
  | storeDecimal x => Word.ofByte 0xF x 0x33
  | storeRegisters x => Word.ofByte 0xF x 0x55
  | loadRegisters x => Word.ofByte 0xF x 0x65
  | unknown w => w

variable {w : Word}

theorem encode_decodeControl (h : w.family = 0x0) : (decodeControl w).encode = w := by
  unfold decodeControl
  split
  · rename_i hw
    exact hw.symm
  · split
    · rename_i hw
      exact hw.symm
    · exact Word.ofAddress_eq h

theorem encode_decodeKey (h : w.family = 0xE) : (decodeKey w).encode = w := by
  unfold decodeKey
  split
  · rename_i hk
    exact Word.ofByte_eq h hk
  · rename_i hk
    exact Word.ofByte_eq h hk
  · rfl

theorem encode_decodeTransfer (h : w.family = 0xF) : (decodeTransfer w).encode = w := by
  unfold decodeTransfer
  split
  case h_10 => rfl
  all_goals
    rename_i hk
    exact Word.ofByte_eq h hk

/-- **Decoding loses nothing**: encoding what a word decodes to gives the word back. -/
theorem encode_decode (w : Word) : (decode w).encode = w := by
  unfold decode
  split
  · rename_i h
    exact encode_decodeControl h
  · rename_i h
    exact Word.ofAddress_eq h
  · rename_i h
    exact Word.ofAddress_eq h
  · rename_i h
    exact Word.ofByte_eq h rfl
  · rename_i h
    exact Word.ofByte_eq h rfl
  · rename_i h
    split
    · rename_i hn
      exact Word.ofDigits_eq h hn
    · rfl
  · rename_i h
    exact Word.ofByte_eq h rfl
  · rename_i h
    exact Word.ofByte_eq h rfl
  · rename_i h
    split
    · rename_i f hf
      exact Word.ofDigits_eq h (Arith.eq_toDigit hf)
    · rfl
  · rename_i h
    split
    · rename_i hn
      exact Word.ofDigits_eq h hn
    · rfl
  · rename_i h
    exact Word.ofAddress_eq h
  · rename_i h
    exact Word.ofAddress_eq h
  · rename_i h
    exact Word.ofByte_eq h rfl
  · rename_i h
    exact Word.ofDigits_eq h rfl
  · rename_i h
    exact encode_decodeKey h
  · have h : w.family = 0xF := by
      generalize w.family = d at *
      revert d
      decide
    exact encode_decodeTransfer h

/-- The fields of a word can be told from its instruction. -/
theorem fields_of_decode {i : Instruction} {f x : Digit} {b : Byte} (h : decode w = i)
    (hi : i.encode = Word.ofByte f x b) : w.family = f ∧ w.x = x ∧ w.kk = b := by
  rw [← encode_decode w, h, hi]
  exact ⟨Word.family_ofByte f x b, Word.x_ofByte f x b, Word.kk_ofByte f x b⟩

/-- No two words decode to the same instruction. -/
theorem decode_injective {v w : Word} (h : decode v = decode w) : v = w := by
  rw [← encode_decode v, h, encode_decode]

end Instruction

end ChipEight
