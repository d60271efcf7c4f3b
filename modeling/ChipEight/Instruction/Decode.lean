import ChipEight.Instruction.Basic

/-!
# From words to instructions

The leading digit of a word selects a family; within a family the last digit or the low byte may
select further. Every word decodes: one that is no instruction decodes to `Instruction.unknown`.

* `Arith.ofDigit?` : the functions that the last digit of an `8xyN` word selects;
* `Instruction.decode` : the instruction of a word.
-/

namespace ChipEight

/-- The function that the last digit of an `8xyN` word selects. -/
def Arith.ofDigit? : Digit → Option Arith
  | 0x0#4 => some copy
  | 0x1#4 => some or
  | 0x2#4 => some and
  | 0x3#4 => some xor
  | 0x4#4 => some add
  | 0x5#4 => some sub
  | 0x6#4 => some shiftRight
  | 0x7#4 => some subFrom
  | 0xE#4 => some shiftLeft
  | _ => none

namespace Instruction

/-- The instruction of a word whose leading digit is 0. -/
def decodeControl (w : Word) : Instruction :=
  if w = 0x00E0 then clear else if w = 0x00EE then ret else sys w.nnn

/-- The instruction of a word whose leading digit is E. -/
def decodeKey (w : Word) : Instruction :=
  match w.kk with
  | 0x9E#8 => skip (.keyDown w.x)
  | 0xA1#8 => skip (.keyUp w.x)
  | _ => unknown w

/-- The instruction of a word whose leading digit is F. -/
def decodeTransfer (w : Word) : Instruction :=
  match w.kk with
  | 0x07#8 => readDelay w.x
  | 0x0A#8 => awaitKey w.x
  | 0x15#8 => setDelay w.x
  | 0x18#8 => setSound w.x
  | 0x1E#8 => addIndex w.x
  | 0x29#8 => pointGlyph w.x
  | 0x33#8 => storeDecimal w.x
  | 0x55#8 => storeRegisters w.x
  | 0x65#8 => loadRegisters w.x
  | _ => unknown w

/-- The instruction of a word. -/
def decode (w : Word) : Instruction :=
  match w.family with
  | 0x0#4 => decodeControl w
  | 0x1#4 => jump w.nnn
  | 0x2#4 => call w.nnn
  | 0x3#4 => skip (.byteIs w.x w.kk)
  | 0x4#4 => skip (.byteIsNot w.x w.kk)
  | 0x5#4 => if w.n = 0 then skip (.same w.x w.y) else unknown w
  | 0x6#4 => loadByte w.x w.kk
  | 0x7#4 => addByte w.x w.kk
  | 0x8#4 =>
    match Arith.ofDigit? w.n with
    | some f => arith f w.x w.y
    | none => unknown w
  | 0x9#4 => if w.n = 0 then skip (.differ w.x w.y) else unknown w
  | 0xA#4 => loadIndex w.nnn
  | 0xB#4 => jumpOffset w.nnn
  | 0xC#4 => random w.x w.kk
  | 0xD#4 => draw w.x w.y w.n
  | 0xE#4 => decodeKey w
  | _ => decodeTransfer w

theorem decode_of_transfer {w : Word} (h : w.family = 0xF) : decode w = decodeTransfer w := by
  rw [decode, h]
  rfl

end Instruction

end ChipEight
