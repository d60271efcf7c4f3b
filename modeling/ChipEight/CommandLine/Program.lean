import ChipEight.CommandLine.Options
import ChipEight.Machine
import ChipEight.Rom.Disassembly
import ChipEight.Storage
import ChipEight.Text.Lines

/-!
# The program

What the program answers to its arguments: an exit status, its output, and a complaint if it could
not do what was asked. It has no display of its own, so it loads a program that it is to run, but
does not start it.

* `Reply` : status, output and complaint;
* `Reply.text`, `Reply.lines` : the output as it is written, and the lines that a reader finds there;
* `CommandLine.answer` : the reply to a list of arguments.
-/

namespace ChipEight

/-- What the program answers. -/
structure Reply where
  /-- The exit status: 0 for success, 1 for a failure, 2 for a mistake in the arguments. -/
  status : UInt8
  /-- What is printed, each item with a line feed behind it. -/
  output : List String
  /-- What went wrong. -/
  complaint : Option String
deriving DecidableEq, Repr

namespace Reply

/-- Success with some output. -/
def success (output : List String) : Reply := ⟨0, output, none⟩

/-- A failure. -/
def failure (complaint : String) : Reply := ⟨1, [], some complaint⟩

/-- A mistake in the arguments. -/
def mistake (complaint : String) : Reply := ⟨2, [], some complaint⟩

/-- Success with the output made from what was read, or a failure if it could not be read. -/
def ofRead {α : Type} (output : α → List String) : Except StorageError α → Reply
  | .ok a => success (output a)
  | .error e => failure e.message

/-- The text that is written to the output. -/
def text (r : Reply) : String := String.ofList (Lines.join (r.output.map (·.toList)))

/-- The lines of the text that is written; an item with line feeds in it takes several. -/
def lines (r : Reply) : List String :=
  r.output.flatMap fun item => (Lines.split (item.toList ++ ['\n'])).map String.ofList

/-- The lines can be told from the written text alone. -/
theorem lines_eq_split_text (r : Reply) :
    r.lines = (Lines.split r.text.toList).map String.ofList := by
  simp [lines, text, Lines.split_join, List.flatMap_map, List.map_flatMap]

end Reply

namespace CommandLine

/-- The name and version of the program. -/
def versionLine : String := "chip8 0.1.0"

/-- The explanation of the options. -/
def helpLines : List String :=
  ["Run a program on the 8-bit virtual machine",
   "",
   "Usage: chip8 [OPTIONS] <--rom <ROM>|--list <DIR>|--disassemble <ROM>>",
   "",
   "Options:",
   "  -r, --rom <ROM>                    ROM to load and run",
   "  -l, --list <DIR>                   List the ROMs in a directory",
   "  -d, --disassemble <ROM>            Print the instructions of a ROM",
   "      --cycle-micros <CYCLE_MICROS>  Time budget of a single cycle in microseconds [default: 2000]",
   "      --scale <SCALE>                Window pixels per display pixel [default: 10]",
   "      --seed <SEED>                  Seed for the random number generator",
   "  -v, --verbose...                   Log more; repeat for more detail",
   "  -h, --help                         Print help",
   "  -V, --version                      Print version"]

/-- The reply to a request to run a program that has been read. -/
def replyToRun (options : Options) (rom : List Byte) : Reply :=
  let machine := Machine.ofSeed (UInt64.ofNat (options.seed.getD 0))
  match (machine.load rom).fault with
  | some fault => .failure fault.message
  | none => .failure "no display is available"

variable {m : Type → Type} [Monad m]

/-- The reply to a request. -/
def perform (storage : Storage m) : Request → m Reply
  | .run path options => do
    match ← storage.readFile path with
    | .ok rom => return replyToRun options rom
    | .error e => return .failure e.message
  | .list path => return .ofRead (romPaths path) (← storage.listFolder path)
  | .disassemble path => return .ofRead Rom.disassemble (← storage.readFile path)
  | .help => return .success helpLines
  | .version => return .success [versionLine]
  | .mistake reason => return .mistake reason

/-- The reply to arguments. -/
def answer (storage : Storage m) (arguments : List String) : m Reply :=
  perform storage (parse arguments)

end CommandLine

end ChipEight
