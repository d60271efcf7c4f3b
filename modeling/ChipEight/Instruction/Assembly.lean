import ChipEight.Instruction.Basic
import ChipEight.Text.Hex

/-!
# Assembly text

Each instruction is written as a statement: a mnemonic and a list of operands. Registers are `V0`
to `VF`, numbers are upper-case hexadecimal behind `0x` with the digits of their width, and only
the height of a sprite is decimal. A word outside the instruction set is written as `???` and the
word itself.

* `Operand`, `Operand.text` : the operands and their spelling;
* `Statement`, `Statement.text` : a mnemonic with its operands;
* `Instruction.statement`, `Instruction.text` : the statement of an instruction and its text.
-/

namespace ChipEight

/-- An operand of a statement. -/
inductive Operand where
  /-- A register. -/
  | register (x : Digit)
  /-- A byte. -/
  | byte (kk : Byte)
  /-- An address. -/
  | address (nnn : Address)
  /-- A word. -/
  | word (w : Word)
  /-- A decimal count. -/
  | count (n : Digit)
  /-- The index register. -/
  | index
  /-- The memory that the index register points to. -/
  | indirect
  /-- The delay timer. -/
  | delay
  /-- The sound timer. -/
  | sound
  /-- The next key. -/
  | key
  /-- The glyph of a digit. -/
  | glyph
  /-- The decimal digits of a byte. -/
  | decimal
deriving DecidableEq, Repr

/-- The spelling of an operand. -/
def Operand.text : Operand → String
  | register x => "V" ++ Digit.text x
  | byte kk => Byte.text kk
  | address nnn => Address.text nnn
  | word w => Word.text w
  | count n => toString n.toNat
  | index => "I"
  | indirect => "[I]"
  | delay => "DT"
  | sound => "ST"
  | key => "K"
  | glyph => "F"
  | decimal => "B"

/-- A mnemonic with its operands. -/
structure Statement where
  /-- The name of the operation. -/
  mnemonic : String
  /-- The operands, in the order in which they are written. -/
  operands : List Operand
deriving DecidableEq, Repr

/-- The mnemonic, then a blank and the operands with commas between them, if there are any. -/
def Statement.text (s : Statement) : String :=
  match s.operands with
  | [] => s.mnemonic
  | operands => s.mnemonic ++ " " ++ ", ".intercalate (operands.map Operand.text)

/-- The statement of a skip. -/
def Condition.statement : Condition → Statement
  | byteIs x kk => ⟨"SE", [.register x, .byte kk]⟩
  | byteIsNot x kk => ⟨"SNE", [.register x, .byte kk]⟩
  | same x y => ⟨"SE", [.register x, .register y]⟩
  | differ x y => ⟨"SNE", [.register x, .register y]⟩
  | keyDown x => ⟨"SKP", [.register x]⟩
  | keyUp x => ⟨"SKNP", [.register x]⟩

/-- The name of a function of two registers. -/
def Arith.mnemonic : Arith → String
  | copy => "LD"
  | or => "OR"
  | and => "AND"
  | xor => "XOR"
  | add => "ADD"
  | sub => "SUB"
  | shiftRight => "SHR"
  | subFrom => "SUBN"
  | shiftLeft => "SHL"

namespace Instruction

/-- The statement of an instruction. -/
def statement : Instruction → Statement
  | clear => ⟨"CLS", []⟩
  | ret => ⟨"RET", []⟩
  | sys nnn => ⟨"SYS", [.address nnn]⟩
  | jump nnn => ⟨"JP", [.address nnn]⟩
  | call nnn => ⟨"CALL", [.address nnn]⟩
  | skip c => c.statement
  | loadByte x kk => ⟨"LD", [.register x, .byte kk]⟩
  | addByte x kk => ⟨"ADD", [.register x, .byte kk]⟩
  | arith f x y => ⟨f.mnemonic, [.register x, .register y]⟩
  | loadIndex nnn => ⟨"LD", [.index, .address nnn]⟩
  | jumpOffset nnn => ⟨"JP", [.register 0, .address nnn]⟩
  | random x kk => ⟨"RND", [.register x, .byte kk]⟩
  | draw x y n => ⟨"DRW", [.register x, .register y, .count n]⟩
  | readDelay x => ⟨"LD", [.register x, .delay]⟩
  | awaitKey x => ⟨"LD", [.register x, .key]⟩
  | setDelay x => ⟨"LD", [.delay, .register x]⟩
  | setSound x => ⟨"LD", [.sound, .register x]⟩
  | addIndex x => ⟨"ADD", [.index, .register x]⟩
  | pointGlyph x => ⟨"LD", [.glyph, .register x]⟩
  | storeDecimal x => ⟨"LD", [.decimal, .register x]⟩
  | storeRegisters x => ⟨"LD", [.indirect, .register x]⟩
  | loadRegisters x => ⟨"LD", [.register x, .indirect]⟩
  | unknown w => ⟨"???", [.word w]⟩

/-- The assembly text of an instruction. -/
def text (i : Instruction) : String := i.statement.text

end Instruction

end ChipEight
