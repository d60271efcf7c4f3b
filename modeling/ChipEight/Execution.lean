import ChipEight.State

/-!
# Execution

What each instruction does to the state. An instruction finds the program counter already on the
next one, so that a skip is one more advance. Where an instruction has both a result and a flag,
the flag is written last and wins if they go to the same register.

* `Condition.holds` : whether a skip is taken;
* `Arith.result`, `Arith.flag?` : the functions of two registers;
* `Instruction.execute` : the outcome of an instruction;
* `State.perform`, `State.step` : an instruction word executed, and the next one fetched first.
-/

namespace ChipEight

/-- Whether the condition holds in a state. -/
def Condition.holds (s : State) : Condition → Bool
  | byteIs x kk => s.registers.get x == kk
  | byteIsNot x kk => s.registers.get x != kk
  | same x y => s.registers.get x == s.registers.get y
  | differ x y => s.registers.get x != s.registers.get y
  | keyDown x => s.keypad.isDown (s.registers.get x)
  | keyUp x => !s.keypad.isDown (s.registers.get x)

namespace Arith

/-- The result for the bytes `a` of register `x` and `b` of register `y`. -/
def result (a b : Byte) : Arith → Byte
  | copy => b
  | or => a ||| b
  | and => a &&& b
  | xor => a ^^^ b
  | add => a + b
  | sub => a - b
  | shiftRight => a >>> 1
  | subFrom => b - a
  | shiftLeft => a <<< 1

/-- The flag for the bytes `a` of register `x` and `b` of register `y`, if the function sets it. -/
def flag? (a b : Byte) : Arith → Option Bool
  | copy | or | and | xor => none
  | add => some (decide (wordCount 8 ≤ a.toNat + b.toNat))
  | sub => some (decide (b ≤ a))
  | shiftRight => some (a.getLsbD 0)
  | subFrom => some (decide (a ≤ b))
  | shiftLeft => some (a.getMsbD 0)

/-- The state with the result in register `x` and then the flag in its register. -/
def apply (f : Arith) (x y : Digit) (s : State) : State :=
  let a := s.registers.get x
  let b := s.registers.get y
  let s := s.setRegister x (f.result a b)
  match f.flag? a b with
  | some b => s.setFlag b
  | none => s

end Arith

/-- The hundreds, tens and ones of a byte. -/
def Byte.decimalDigits (b : Byte) : List Byte := [b / 100, b / 10 % 10, b % 10]

namespace State

variable (s : State)

/-- The rows of the sprite of height `n` at the index register. -/
def sprite (n : Digit) : List Byte := s.memory.read s.index.address n.toNat

/-- The state with a sprite drawn at the column and the row that registers `x` and `y` hold,
both taken round the display. The flag tells whether a lit pixel went out. -/
def draw (x y n : Digit) : State :=
  let column := (s.registers.get x).setWidth 6
  let top := (s.registers.get y).setWidth 5
  let sprite := s.sprite n
  { s with frame := s.frame.draw column top sprite }.setFlag (s.frame.collides column top sprite)

/-- The state with a random byte, masked with `kk`, in register `x`. -/
def randomize (x : Digit) (kk : Byte) : State :=
  { s with random := s.random.advance }.setRegister x (s.random.byte &&& kk)

/-- The state with registers 0 to `x` loaded from the bytes at the index register. -/
def loadRegisters (x : Digit) : State :=
  { s with
    registers := Bank.ofFn fun r =>
      if r ≤ x then s.memory.get (s.index.address + r.setWidth 12) else s.registers.get r }

end State

namespace Instruction

/-- The outcome of an instruction. The word `op` stands in the report of one that does not exist
or is not implemented. -/
def execute (op : Word) (s : State) : Instruction → Outcome State
  | clear => .done { s with frame := .blank }
  | ret => s.pop
  | sys _ => .failed s (.notImplemented op s.site)
  | jump nnn => s.jump (nnn.setWidth 16)
  | call nnn => s.push.andThen fun s => s.jump (nnn.setWidth 16)
  | skip c => .done (if c.holds s then s.advance else s)
  | loadByte x kk => .done (s.setRegister x kk)
  | addByte x kk => .done (s.setRegister x (s.registers.get x + kk))
  | arith f x y => .done (f.apply x y s)
  | loadIndex nnn => .done { s with index := nnn.setWidth 16 }
  | jumpOffset nnn => s.jump ((nnn + (s.registers.get 0).setWidth 12).setWidth 16)
  | random x kk => .done (s.randomize x kk)
  | draw x y n => .done (s.draw x y n)
  | readDelay x => .done (s.setRegister x s.timers.delay)
  | awaitKey x => .reported { s with mode := .waiting x } [.awaitingKey x]
  | setDelay x => .done { s with timers := { s.timers with delay := s.registers.get x } }
  | setSound x => .done { s with timers := { s.timers with sound := s.registers.get x } }
  | addIndex x => .done { s with index := s.index + (s.registers.get x).setWidth 16 }
  | pointGlyph x =>
    .done { s with index := (glyphAddress ((s.registers.get x).setWidth 4)).setWidth 16 }
  | storeDecimal x => s.storeAtIndex (Byte.decimalDigits (s.registers.get x))
  | storeRegisters x => s.storeAtIndex (s.registers.toList.take (x.toNat + 1))
  | loadRegisters x => .done (s.loadRegisters x)
  | unknown _ => .failed s (.unknownInstruction op s.site)

end Instruction

namespace State

variable (s : State)

/-- Executes the instruction of `word` as if it had just been fetched; `op` stands for it in the
reports of faults. -/
def perform (word op : Word) : Outcome State := (Instruction.decode word).execute op s.advance

/-- The report made before the instruction at the program counter is executed. -/
def trace : Event := .executing s.pc s.fetch s.registers s.index

/-- Executes the instruction at the program counter; while the processor waits for a key, nothing
happens. -/
def step : Outcome State :=
  match s.mode with
  | .running => (s.perform s.fetch s.fetch).after [s.trace]
  | .waiting _ => .done s

end State

end ChipEight
