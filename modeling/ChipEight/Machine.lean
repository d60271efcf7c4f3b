import ChipEight.Execution
import ChipEight.Rom.Reader

/-!
# The machine

The machine as its surroundings see it: a state, and the keypad as it was when a key wait was last
checked. A wait ends at the first check that finds a key down that was up at the check before, so
a key that has been held all the time does not end it.

* `Machine`, `Machine.ofSeed` : a new machine;
* `Machine.load`, `Machine.loadFrom` : putting a program into memory;
* `Machine.step`, `Machine.steps` : executing one instruction, and several;
* `Machine.press`, `Machine.release`, `Machine.setKeypad` : the keypad;
* `Machine.check` : ending a key wait;
* `Machine.tick`, `Machine.ticks` : the timers.
-/

namespace ChipEight

/-- A state, and what is remembered from the last check of a key wait. -/
structure Machine where
  /-- The state. -/
  state : State
  /-- The keypad at the last check. -/
  checked : Keypad

namespace Machine

/-- A new machine with the given random numbers. -/
def new (random : RandomSource) : Machine := ⟨.initial random, .empty⟩

/-- A new machine whose random numbers can be had again from the same seed. -/
def ofSeed (seed : UInt64) : Machine := new (.ofSeed seed)

variable (m : Machine)

/-- Copies a program into memory, unless it is too long. -/
def load (rom : List Byte) : Outcome Machine :=
  if maxRomSize < rom.length then .failed m (.romTooLarge rom.length)
  else
    .reported { m with state := { m.state with memory := m.state.memory.load rom } }
      [.loadedRom rom.length]

/-- Reads a program to its end and copies it into memory. -/
def loadFrom (reads : List ReadEvent) : Outcome Machine :=
  match ReadEvent.collect reads with
  | .ok rom => m.load rom
  | .error reason => .failed m (.unreadable reason)

/-- Executes one instruction, unless the processor waits for a key. -/
def step : Outcome Machine := m.state.step.map fun s => { m with state := s }

/-- Steps at most `n` times and stops at the first fault, with the number of steps that
succeeded. -/
def steps : Nat → Machine → Nat × Outcome Machine
  | 0, m => (0, .done m)
  | n + 1, m =>
    let first := m.step
    match first.fault with
    | some _ => (0, first)
    | none =>
      let rest := steps n first.state
      (rest.1 + 1, rest.2.after first.log)

/-- The machine with another keypad. -/
def setKeypad (p : Keypad) : Machine := { m with state := { m.state with keypad := p } }

/-- The machine after a key has gone down. -/
def press (key : Byte) : Machine := m.setKeypad (m.state.keypad.press key)

/-- The machine after a key has gone up. -/
def release (key : Byte) : Machine := m.setKeypad (m.state.keypad.release key)

/-- Ends a key wait if a key has gone down since the last check. -/
def check : Outcome Machine :=
  match m.state.mode, m.state.keypad.freshKey? m.checked with
  | .waiting x, some key =>
    .reported
      { state := { m.state.setRegister x (key.setWidth 8) with mode := .running }
        checked := m.state.keypad }
      [.keyPressed key x]
  | _, _ => .done { m with checked := m.state.keypad }

/-- The machine after `n` ticks of its timers. -/
def ticks (n : Nat) : Machine :=
  { m with state := { m.state with timers := m.state.timers.after n } }

/-- The machine after a tick of its timers. -/
def tick : Machine := m.ticks 1

end Machine

end ChipEight
