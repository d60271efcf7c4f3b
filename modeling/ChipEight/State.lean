import ChipEight.CallStack
import ChipEight.Frame.Basic
import ChipEight.Keypad
import ChipEight.Memory
import ChipEight.Outcome
import ChipEight.Random.Source
import ChipEight.Timers

/-!
# The state of the machine

Registers, memory, call stack, display, timers and keypad, and the operations on them that
instructions are made of. The program counter and the index register are words, of which only the
low twelve bits ever address memory. An instruction runs with the program counter already on the
next one, so its own address, the site of its faults, lies two bytes back.

* `State`, `State.initial`, `Mode` : the state, at the start, and what the processor does in it;
* `State.fetch`, `State.advance` : taking the next instruction word;
* `State.jump`, `State.push`, `State.pop` : the transfers of control, which may fail;
* `State.storeAll` : stores into memory, with a report of each that is dropped.
-/

namespace ChipEight

/-- One byte for each register. -/
abbrev Registers := Bank 4 Byte

/-- What the processor does. -/
inductive Mode where
  /-- It executes instructions. -/
  | running
  /-- It waits for a key, which register `x` will receive. -/
  | waiting (x : Digit)
deriving DecidableEq, Repr

/-- The state of the machine. -/
structure State where
  /-- The sixteen registers. -/
  registers : Registers
  /-- The index register, which points to data in memory. -/
  index : Word
  /-- The program counter. -/
  pc : Word
  /-- The return addresses of the calls in progress. -/
  stack : CallStack
  /-- The font and the program with its data. -/
  memory : Memory
  /-- What the display shows. -/
  frame : Frame
  /-- The delay timer and the sound timer. -/
  timers : Timers
  /-- The keys that are held down. -/
  keypad : Keypad
  /-- Whether the processor runs or waits. -/
  mode : Mode
  /-- The random numbers still to come. -/
  random : RandomSource

namespace State

/-- The state before a program is loaded. -/
def initial (random : RandomSource) : State where
  registers := Bank.replicate 0
  index := 0
  pc := programStart.setWidth 16
  stack := .empty
  memory := .initial
  frame := .blank
  timers := .zero
  keypad := .empty
  mode := .running
  random := random

variable (s : State)

/-- The address of the instruction in execution: the program counter is two bytes past it. -/
def site : Address := (s.pc - 2).address

/-- The instruction word at the program counter. -/
def fetch : Word := s.memory.wordAt s.pc.address

/-- The state with the program counter on the next instruction. -/
def advance : State := { s with pc := (s.pc + 2).address.setWidth 16 }

/-- The state with `v` in register `x`. -/
def setRegister (x : Digit) (v : Byte) : State := { s with registers := s.registers.set x v }

/-- The state with the flag register telling a truth value. -/
def setFlag (b : Bool) : State := s.setRegister flagRegister (Byte.ofBool b)

/-- Goes on at `target`, which has to lie in the part of memory that programs occupy. -/
def jump (target : Word) : Outcome State :=
  if isProgramAddress target then .done { s with pc := target }
  else .failed s (.invalidJumpTarget target s.site)

/-- Puts the program counter on the call stack. -/
def push : Outcome State :=
  match s.stack.push? s.pc with
  | some stack => .done { s with stack := stack }
  | none => .failed s (.stackOverflow s.site)

/-- Takes the program counter from the call stack. -/
def pop : Outcome State :=
  match s.stack.pop? with
  | some (pc, stack) => .done { s with pc := pc, stack := stack }
  | none => .failed s (.stackUnderflow s.site)

/-- The report of a store, if it is dropped. -/
def dropReport? (c : Address × Byte) : Option Event :=
  if Memory.isReserved c.1 then some (.droppedStore c.2 c.1 s.site) else none

/-- Stores one byte after the other. -/
def storeAll (stores : List (Address × Byte)) : Outcome State :=
  .reported { s with memory := s.memory.storeAll stores } (stores.filterMap s.dropReport?)

/-- Stores bytes one after the other from the index register on. -/
def storeAtIndex (bytes : List Byte) : Outcome State :=
  s.storeAll (Memory.cells s.index.address bytes)

end State

end ChipEight
