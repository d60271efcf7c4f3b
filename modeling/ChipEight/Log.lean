import ChipEight.Bank
import ChipEight.Instruction.Assembly
import ChipEight.Instruction.Decode
import ChipEight.Text.Duration

/-!
# The log

Everything that the machine and its run loop report while they work, as data; the texts are made
from it.

* `Level`, `Level.admits` : how important a report is, and what a reader of a level gets to see;
* `Event` : the reports;
* `Event.level`, `Event.message` : the level and the text of each.
-/

namespace ChipEight

/-- How important a report is. -/
inductive Level where
  | error
  | warn
  | info
  | debug
  | trace
deriving DecidableEq, Repr

namespace Level

/-- The place of a level in the order from the most important one down. -/
def rank : Level → Nat
  | error => 0
  | warn => 1
  | info => 2
  | debug => 3
  | trace => 4

/-- Whether a reader who asks for level `l` sees a report of level `r`. -/
def admits (l r : Level) : Bool := r.rank ≤ l.rank

/-- The name of a level in a log. -/
def label : Level → String
  | error => "ERROR"
  | warn => "WARN"
  | info => "INFO"
  | debug => "DEBUG"
  | trace => "TRACE"

end Level

/-- A report. -/
inductive Event where
  /-- The instruction at `site` tried to store `value` in the reserved part of memory. -/
  | droppedStore (value : Byte) (target site : Address)
  /-- A program of `size` bytes has been loaded. -/
  | loadedRom (size : Nat)
  /-- The run loop starts; both times are in nanoseconds. -/
  | starting (cycleTime timerPeriod : Nat)
  /-- The user wants to stop. -/
  | quitRequested
  /-- The processor waits for a key, which register `x` will receive. -/
  | awaitingKey (x : Digit)
  /-- The awaited key has been pressed. -/
  | keyPressed (key x : Digit)
  /-- The buzzer goes on or off. -/
  | buzzer (on : Bool)
  /-- The word `op` fetched at `pc` is about to be executed, with these registers. -/
  | executing (pc op : Word) (registers : Bank 4 Byte) (index : Word)
deriving DecidableEq

namespace Event

/-- The level of a report. -/
def level : Event → Level
  | droppedStore .. => .warn
  | loadedRom .. => .info
  | starting .. => .info
  | quitRequested => .info
  | awaitingKey .. => .debug
  | keyPressed .. => .debug
  | buzzer .. => .debug
  | executing .. => .trace

/-- The registers as a list of bytes of two digits each. -/
def registersText (registers : Bank 4 Byte) : String :=
  "[" ++ ", ".intercalate (registers.toList.map fun b => Hex.numeral 2 b.toNat) ++ "]"

/-- The width of the column that holds the assembly text of an instruction. -/
def assemblyWidth : Nat := 16

/-- The text of a report. -/
def message : Event → String
  | droppedStore value target site =>
    "ignoring write of " ++ Byte.text value ++ " to reserved address " ++ Address.text target ++
      " at " ++ Address.text site
  | loadedRom size => "loaded ROM [size: " ++ toString size ++ "]"
  | starting cycleTime timerPeriod =>
    "starting [cycle: " ++ Duration.text cycleTime ++ ", timer period: " ++
      Duration.text timerPeriod ++ "]"
  | quitRequested => "quit requested"
  | awaitingKey x => "waiting for a key press into V" ++ Digit.text x
  | keyPressed key x => "key " ++ Digit.text key ++ " pressed into V" ++ Digit.text x
  | buzzer on => if on then "buzzer on" else "buzzer off"
  | executing pc op registers index =>
    Hex.numeral 3 pc.toNat ++ ": " ++ Hex.numeral 4 op.toNat ++ " " ++
      padRight assemblyWidth (Instruction.decode op).text ++ " v" ++ registersText registers ++
      " i" ++ Hex.numeral 4 index.toNat

end Event

end ChipEight
