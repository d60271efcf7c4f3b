import ChipEight.Instruction.Encode
import Mathlib.Tactic.Tauto

/-!
# The instruction set as a table

The words of a kind of instruction show the same bits through a mask: the leading digit, the
leading and the last one, the leading digit and the low byte, or all of them. A list of masks and
patterns therefore says which words are instructions, without a decoder, and the decoder finds
exactly these.

* `instructionTable` : the masks, each with the bits that the words of a kind show through it;
* `Word.IsInstruction` : whether a word is of a kind of the table;
* `Word.isInstruction_iff` : the same said of the fields of the word;
* `Instruction.decode_eq_unknown_iff` : the words that decode to no instruction;
* `Instruction.decode_of_call`, `Instruction.call_of_decode` and their like : the words of the
  instructions that can fail;
* `Instruction.decode_of_draw`, `Instruction.decode_eq_random_iff` : those of two further kinds.
-/

namespace ChipEight

/-- The patterns of the kinds that the leading digit selects. -/
def familyPatterns : List Word :=
  [0x0000, 0x1000, 0x2000, 0x3000, 0x4000, 0x6000, 0x7000, 0xA000, 0xB000, 0xC000, 0xD000]

/-- The patterns of the kinds that the leading and the last digit select. -/
def digitPatterns : List Word :=
  [0x5000, 0x8000, 0x8001, 0x8002, 0x8003, 0x8004, 0x8005, 0x8006, 0x8007, 0x800E, 0x9000]

/-- The patterns of the kinds that the leading digit and the low byte select. -/
def bytePatterns : List Word :=
  [0xE09E, 0xE0A1, 0xF007, 0xF00A, 0xF015, 0xF018, 0xF01E, 0xF029, 0xF033, 0xF055, 0xF065]

/-- The kinds of instruction words, each by a mask and by the bits that its words show through the
mask. -/
def instructionTable : List (Word × Word) :=
  [0x00E0, 0x00EE].map (0xFFFF, ·) ++ familyPatterns.map (0xF000, ·) ++
    digitPatterns.map (0xF00F, ·) ++ bytePatterns.map (0xF0FF, ·)

theorem length_instructionTable : instructionTable.length = 35 := rfl

namespace Word

variable {w : Word}

/-- Whether a word is of a kind of the table. -/
def IsInstruction (w : Word) : Prop := ∃ e ∈ instructionTable, w &&& e.1 = e.2

instance (w : Word) : Decidable w.IsInstruction :=
  inferInstanceAs (Decidable (∃ e ∈ instructionTable, w &&& e.1 = e.2))

/-! ### What is seen through the masks -/

theorem and_familyMask (w : Word) : w &&& 0xF000 = ofAddress w.family 0 := by
  calc w &&& 0xF000
      = ((w.family ++ w.nnn) &&& (BitVec.allOnes 4 ++ 0#12) : BitVec (4 + 12)) := by
        rw [append_nnn]
        rfl
    _ = ofAddress w.family 0 := by
        rw [BitVec.and_append, BitVec.and_allOnes, BitVec.and_zero]
        rfl

theorem and_digitMask (w : Word) : w &&& 0xF00F = ofDigits w.family 0 0 w.n := by
  calc w &&& 0xF00F
      = ((w.family ++ w.x ++ w.y ++ w.n) &&&
          (BitVec.allOnes 4 ++ 0#4 ++ 0#4 ++ BitVec.allOnes 4) : BitVec (4 + 4 + 4 + 4)) := by
        rw [append_digits]
        rfl
    _ = ofDigits w.family 0 0 w.n := by
        rw [BitVec.and_append, BitVec.and_append, BitVec.and_append, BitVec.and_allOnes,
          BitVec.and_allOnes, BitVec.and_zero, BitVec.and_zero]
        rfl

theorem and_byteMask (w : Word) : w &&& 0xF0FF = ofByte w.family 0 w.kk := by
  calc w &&& 0xF0FF
      = ((w.family ++ w.x ++ w.kk) &&&
          (BitVec.allOnes 4 ++ 0#4 ++ BitVec.allOnes 8) : BitVec (4 + 4 + 8)) := by
        rw [append_kk]
        rfl
    _ = ofByte w.family 0 w.kk := by
        rw [BitVec.and_append, BitVec.and_append, BitVec.and_allOnes, BitVec.and_allOnes,
          BitVec.and_zero]
        rfl

/-! ### The patterns, field by field -/

theorem ofAddress_mem_familyPatterns : ∀ f : Digit,
    ofAddress f 0 ∈ familyPatterns ↔ f ∉ [0x5, 0x8, 0x9, 0xE, 0xF] := by
  decide

theorem ofDigits_mem_digitPatterns : ∀ f d : Digit,
    ofDigits f 0 0 d ∈ digitPatterns ↔
      (f = 0x5 ∨ f = 0x9) ∧ d = 0 ∨ f = 0x8 ∧ (Arith.ofDigit? d).isSome := by
  decide

theorem ofByte_mem_bytePatterns {f : Digit} {b : Byte} :
    ofByte f 0 b ∈ bytePatterns ↔
      f = 0xE ∧ b ∈ [0x9E, 0xA1] ∨
        f = 0xF ∧ b ∈ [0x07, 0x0A, 0x15, 0x18, 0x1E, 0x29, 0x33, 0x55, 0x65] := by
  -- there are too many bytes to try them all
  have h : bytePatterns = [0x9E, 0xA1].map (ofByte 0xE 0) ++
      [0x07, 0x0A, 0x15, 0x18, 0x1E, 0x29, 0x33, 0x55, 0x65].map (ofByte 0xF 0) := by
    decide
  have h_map (g : Digit) (bytes : List Byte) :
      ofByte f 0 b ∈ bytes.map (ofByte g 0) ↔ f = g ∧ b ∈ bytes := by
    constructor
    · intro hb
      obtain ⟨c, hc, he⟩ := List.mem_map.1 hb
      have hf : f = g := by rw [← family_ofByte f 0 b, ← he, family_ofByte]
      have hk : b = c := by rw [← kk_ofByte f 0 b, ← he, kk_ofByte]
      exact ⟨hf, hk ▸ hc⟩
    · rintro ⟨rfl, hb⟩
      exact List.mem_map_of_mem hb
  rw [h, List.mem_append, h_map, h_map]

theorem exists_mem_map_mask {m : Word} {patterns : List Word} :
    (∃ e ∈ patterns.map (m, ·), w &&& e.1 = e.2) ↔ w &&& m ∈ patterns := by
  simp

/-- The leading digit alone may tell that a word is an instruction; otherwise its last digit or its
low byte tells. -/
theorem isInstruction_iff :
    w.IsInstruction ↔
      w.family ∉ [0x5, 0x8, 0x9, 0xE, 0xF] ∨ (w.family = 0x5 ∨ w.family = 0x9) ∧ w.n = 0 ∨
        w.family = 0x8 ∧ (Arith.ofDigit? w.n).isSome ∨ w.family = 0xE ∧ w.kk ∈ [0x9E, 0xA1] ∨
        w.family = 0xF ∧ w.kk ∈ [0x07, 0x0A, 0x15, 0x18, 0x1E, 0x29, 0x33, 0x55, 0x65] := by
  -- the two words that the table lists by themselves have leading digit 0
  have h_single : w &&& 0xFFFF ∈ [0x00E0, 0x00EE] → w.family ∉ [0x5, 0x8, 0x9, 0xE, 0xF] := by
    have hm : w &&& 0xFFFF = w := BitVec.and_allOnes
    rw [hm]
    intro h
    simp only [List.mem_cons, List.not_mem_nil, or_false] at h
    rcases h with rfl | rfl
    · decide
    · decide
  simp only [IsInstruction, instructionTable, List.mem_append, or_and_right, exists_or,
    exists_mem_map_mask, and_familyMask, and_digitMask, and_byteMask,
    ofAddress_mem_familyPatterns, ofDigits_mem_digitPatterns, ofByte_mem_bytePatterns]
  tauto

end Word

namespace Instruction

variable {w : Word}

theorem decodeControl_ne_unknown (w : Word) : decodeControl w ≠ unknown w := by
  unfold decodeControl
  split
  · simp
  · split
    · simp
    · simp

theorem decodeKey_eq_unknown_iff : decodeKey w = unknown w ↔ w.kk ∉ [0x9E, 0xA1] := by
  unfold decodeKey
  split
  case h_3 =>
    refine iff_of_true rfl ?_
    simp only [List.mem_cons, List.not_mem_nil, or_false]
    tauto
  all_goals
    rename_i hk
    simp [hk]

theorem decodeTransfer_eq_unknown_iff :
    decodeTransfer w = unknown w ↔
      w.kk ∉ [0x07, 0x0A, 0x15, 0x18, 0x1E, 0x29, 0x33, 0x55, 0x65] := by
  unfold decodeTransfer
  split
  case h_10 =>
    refine iff_of_true rfl ?_
    simp only [List.mem_cons, List.not_mem_nil, or_false]
    tauto
  all_goals
    rename_i hk
    simp [hk]

/-- The words that decode to no instruction are those that are of no kind of the table. -/
theorem decode_eq_unknown_iff : decode w = unknown w ↔ ¬ w.IsInstruction := by
  rw [Word.isInstruction_iff]
  unfold decode
  split
  case h_1 h => simp [h, decodeControl_ne_unknown]
  case h_9 h =>
    cases hf : Arith.ofDigit? w.n with
    | some f => simp [h]
    | none => simp [h]
  case h_15 h => simp [h, decodeKey_eq_unknown_iff]
  case h_16 =>
    have h : w.family = 0xF := by
      generalize w.family = d at *
      revert d
      decide
    simp [h, decodeTransfer_eq_unknown_iff]
  -- in the other families the leading digit alone decides, or the last one is looked at
  all_goals
    rename_i h
    simp [h]

example : Word.IsInstruction 0x8127 ∧ ¬ Word.IsInstruction 0x8128 := by decide

/-! ### The words of the instructions that can fail -/

theorem decode_of_jump (h : w.family = 0x1) : decode w = jump w.nnn := by
  simp [decode, h]

theorem decode_of_call (h : w.family = 0x2) : decode w = call w.nnn := by
  simp [decode, h]

theorem decode_of_jumpOffset (h : w.family = 0xB) : decode w = jumpOffset w.nnn := by
  simp [decode, h]

theorem decode_ret : decode 0x00EE = ret := by
  decide

theorem decode_of_sys (h : w.family = 0x0) (hc : w ≠ 0x00E0) (hr : w ≠ 0x00EE) :
    decode w = sys w.nnn := by
  have hd : decode w = decodeControl w := by simp [decode, h]
  rw [hd, decodeControl, if_neg hc, if_neg hr]

theorem jump_of_decode {a : Address} (h : decode w = jump a) : w.family = 0x1 ∧ w.nnn = a := by
  rw [← encode_decode w, h]
  exact ⟨Word.family_ofAddress _ _, Word.nnn_ofAddress _ _⟩

theorem call_of_decode {a : Address} (h : decode w = call a) : w.family = 0x2 ∧ w.nnn = a := by
  rw [← encode_decode w, h]
  exact ⟨Word.family_ofAddress _ _, Word.nnn_ofAddress _ _⟩

theorem jumpOffset_of_decode {a : Address} (h : decode w = jumpOffset a) :
    w.family = 0xB ∧ w.nnn = a := by
  rw [← encode_decode w, h]
  exact ⟨Word.family_ofAddress _ _, Word.nnn_ofAddress _ _⟩

theorem ret_of_decode (h : decode w = ret) : w = 0x00EE := by
  rw [← encode_decode w, h]
  rfl

theorem sys_of_decode {a : Address} (h : decode w = sys a) :
    w.family = 0x0 ∧ w ≠ 0x00E0 ∧ w ≠ 0x00EE := by
  refine ⟨?_, ?_, ?_⟩
  · rw [← encode_decode w, h]
    exact Word.family_ofAddress _ _
  · rintro rfl
    have hc : decode 0x00E0 = clear := by decide
    rw [hc] at h
    cases h
  · rintro rfl
    rw [decode_ret] at h
    cases h

theorem unknown_of_decode {v : Word} (h : decode w = unknown v) : v = w := by
  rw [← encode_decode w, h]
  rfl

/-! ### The words of draws and of the instruction that takes a random number -/

theorem decode_of_draw (h : w.family = 0xD) : decode w = draw w.x w.y w.n := by
  simp [decode, h]

theorem decode_eq_random_iff {x : Digit} {kk : Byte} :
    decode w = random x kk ↔ w.family = 0xC ∧ w.x = x ∧ w.kk = kk := by
  constructor
  · intro h
    exact fields_of_decode h rfl
  · rintro ⟨h, rfl, rfl⟩
    simp [decode, h]

end Instruction

end ChipEight
