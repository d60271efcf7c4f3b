import ChipEight.Word

/-!
# The instruction set

Instructions as data. The conditional skips differ only in their condition, and the instructions
on two registers only in the function that they apply, so each of these families is one
instruction with a parameter.

* `Condition` : what a skip depends on;
* `Arith` : the functions of two registers;
* `Instruction` : an instruction with its operands.
-/

namespace ChipEight

/-- The condition of a skip. -/
inductive Condition where
  /-- Register `x` holds `kk`. -/
  | byteIs (x : Digit) (kk : Byte)
  /-- Register `x` does not hold `kk`. -/
  | byteIsNot (x : Digit) (kk : Byte)
  /-- Registers `x` and `y` hold the same byte. -/
  | same (x y : Digit)
  /-- Registers `x` and `y` hold different bytes. -/
  | differ (x y : Digit)
  /-- The key that register `x` names is down. -/
  | keyDown (x : Digit)
  /-- The key that register `x` names is up. -/
  | keyUp (x : Digit)
deriving DecidableEq, Repr

/-- A function of registers `x` and `y` whose result goes to `x`. -/
inductive Arith where
  /-- The byte of `y`. -/
  | copy
  /-- Bitwise disjunction. -/
  | or
  /-- Bitwise conjunction. -/
  | and
  /-- Bitwise exclusive disjunction. -/
  | xor
  /-- The sum; the flag is the carry. -/
  | add
  /-- `x` less `y`; the flag is the absence of a borrow. -/
  | sub
  /-- `x` shifted right by one, whatever `y` holds; the flag is the bit shifted out. -/
  | shiftRight
  /-- `y` less `x`; the flag is the absence of a borrow. -/
  | subFrom
  /-- `x` shifted left by one, whatever `y` holds; the flag is the bit shifted out. -/
  | shiftLeft
deriving DecidableEq, Repr

/-- An instruction with its operands. -/
inductive Instruction where
  /-- Clear the display. -/
  | clear
  /-- Return from a subroutine. -/
  | ret
  /-- Call a native routine; there are none to call. -/
  | sys (nnn : Address)
  /-- Jump to `nnn`. -/
  | jump (nnn : Address)
  /-- Call the subroutine at `nnn`. -/
  | call (nnn : Address)
  /-- Skip the next instruction if the condition holds. -/
  | skip (c : Condition)
  /-- Put `kk` into register `x`. -/
  | loadByte (x : Digit) (kk : Byte)
  /-- Add `kk` to register `x`, without a carry. -/
  | addByte (x : Digit) (kk : Byte)
  /-- Apply a function to registers `x` and `y`. -/
  | arith (f : Arith) (x y : Digit)
  /-- Point the index register to `nnn`. -/
  | loadIndex (nnn : Address)
  /-- Jump to `nnn` plus register 0. -/
  | jumpOffset (nnn : Address)
  /-- Put a random byte, masked with `kk`, into register `x`. -/
  | random (x : Digit) (kk : Byte)
  /-- Draw the sprite of `n` rows at the index register, at column `x` and row `y`. -/
  | draw (x y n : Digit)
  /-- Read the delay timer into register `x`. -/
  | readDelay (x : Digit)
  /-- Wait for a key and put it into register `x`. -/
  | awaitKey (x : Digit)
  /-- Set the delay timer from register `x`. -/
  | setDelay (x : Digit)
  /-- Set the sound timer from register `x`. -/
  | setSound (x : Digit)
  /-- Add register `x` to the index register. -/
  | addIndex (x : Digit)
  /-- Point the index register to the glyph of the low digit of register `x`. -/
  | pointGlyph (x : Digit)
  /-- Store the three decimal digits of register `x` at the index register. -/
  | storeDecimal (x : Digit)
  /-- Store registers 0 to `x` at the index register. -/
  | storeRegisters (x : Digit)
  /-- Load registers 0 to `x` from the index register. -/
  | loadRegisters (x : Digit)
  /-- A word outside the instruction set. -/
  | unknown (w : Word)
deriving DecidableEq, Repr

end ChipEight
