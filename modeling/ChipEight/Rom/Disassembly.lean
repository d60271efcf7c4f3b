import ChipEight.Instruction.Assembly
import ChipEight.Instruction.Decode
import ChipEight.Layout

/-!
# Disassembly

A program is shown one line for each of its words: the address, the word and its assembly text. A
last byte without a partner is shown as a word whose low byte is zero.

* `Rom.words` : the words of a program;
* `Rom.line`, `Rom.disassemble` : one line, and all of them.
-/

namespace ChipEight

namespace Rom

/-- The big-endian words of a program. -/
def words : List Byte → List Word
  | [] => []
  | [high] => [Word.ofBytes high 0]
  | high :: low :: rest => Word.ofBytes high low :: words rest

/-- The line for the word `w` at `address`. -/
def line (address w : Word) : String :=
  Hex.numeral 3 address.toNat ++ "  " ++ Hex.numeral 4 w.toNat ++ "  " ++
    (Instruction.decode w).text

/-- The lines for words that start at `address`. -/
def lines (address : Word) : List Word → List String
  | [] => []
  | w :: rest => line address w :: lines (address + 2) rest

/-- The lines of a program, as it is loaded. -/
def disassemble (rom : List Byte) : List String := lines (programStart.setWidth 16) (words rom)

end Rom

end ChipEight
