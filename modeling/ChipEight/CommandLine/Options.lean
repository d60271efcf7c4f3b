import ChipEight.Word

/-!
# Command-line options

The options of the program and how their values are read. A long option may have its value behind
an equals sign or as the next argument; one-letter options may be put together behind one dash,
and the last of them may have its value right behind it, with or without an equals sign. A value
in an argument of its own must not look like an option.

* `Flag` : the options by name;
* `Options`, `Options.assign`, `Options.switch` : what has been given so far;
* `Options.request` : what is asked for in the end;
* `CommandLine.parse` : the request that a list of arguments makes.
-/

namespace ChipEight

/-- The options. -/
inductive Flag where
  /-- Run a program. -/
  | rom
  /-- List the programs in a folder. -/
  | list
  /-- Show the instructions of a program. -/
  | disassemble
  /-- The time of a turn in microseconds. -/
  | cycleMicros
  /-- The size of a pixel. -/
  | scale
  /-- The seed of the random numbers. -/
  | seed
  /-- Report more. -/
  | verbose
  /-- Explain the options. -/
  | help
  /-- Tell the version. -/
  | version
deriving DecidableEq, Repr

namespace Flag

/-- The option with a long name. -/
def ofName? : String → Option Flag
  | "rom" => some rom
  | "list" => some list
  | "disassemble" => some disassemble
  | "cycle-micros" => some cycleMicros
  | "scale" => some scale
  | "seed" => some seed
  | "verbose" => some verbose
  | "help" => some help
  | "version" => some version
  | _ => none

/-- The option with a one-letter name. -/
def ofLetter? : Char → Option Flag
  | 'r' => some rom
  | 'l' => some list
  | 'd' => some disassemble
  | 'v' => some verbose
  | 'h' => some help
  | 'V' => some version
  | _ => none

/-- Whether the option has a value. -/
def takesValue : Flag → Bool
  | verbose | help | version => false
  | _ => true

end Flag

/-- The options given so far. -/
structure Options where
  /-- The program to run. -/
  rom : Option String
  /-- The folder to list. -/
  list : Option String
  /-- The program to show. -/
  disassemble : Option String
  /-- The time of a turn in microseconds. -/
  cycleMicros : Option Nat
  /-- The size of a pixel. -/
  scale : Option Nat
  /-- The seed of the random numbers. -/
  seed : Option Nat
  /-- How often more reports were asked for. -/
  verbosity : Nat
deriving DecidableEq, Repr

/-- No option has been given. -/
def Options.empty : Options := ⟨none, none, none, none, none, none, 0⟩

/-- What the user asks for. -/
inductive Request where
  /-- Run the program at a path. -/
  | run (path : String) (options : Options)
  /-- List the programs in the folder at a path. -/
  | list (path : String)
  /-- Show the instructions of the program at a path. -/
  | disassemble (path : String)
  /-- Explain the options. -/
  | help
  /-- Tell the version. -/
  | version
  /-- Nothing that makes sense, for a reason. -/
  | mistake (reason : String)
deriving DecidableEq, Repr

namespace Options

/-- The number that decimal digits stand for. -/
def ofDigits (digits : List Char) : Nat :=
  digits.foldl (fun n c => 10 * n + (c.toNat - '0'.toNat)) 0

/-- The number that digits stand for, if they are digits and it is below `bound`. -/
def number? (bound : Nat) (digits : List Char) : Option Nat :=
  if !digits.isEmpty && digits.all Char.isDigit && ofDigits digits < bound then
    some (ofDigits digits)
  else none

/-- An unsigned number below `bound`, perhaps with a plus sign in front. -/
def unsigned? (bound : Nat) (text : String) : Option Nat :=
  match text.toList with
  | '+' :: digits => number? bound digits
  | digits => number? bound digits

/-- A signed number that is not negative and below `bound`. Zero may have a minus sign. -/
def signed? (bound : Nat) (text : String) : Option Nat :=
  match text.toList with
  | '-' :: digits => number? 1 digits
  | _ => unsigned? bound text

/-- A path that is not empty. -/
def path? (text : String) : Option String := if text.isEmpty then none else some text

/-- A field that has not been given before, with the value that a text stands for. -/
def fill {α : Type} (name : String) (field : Option α) (value? : Option α) :
    Except Request (Option α) :=
  if field.isSome then .error (.mistake ("--" ++ name ++ " cannot be used multiple times"))
  else
    match value? with
    | some value => .ok (some value)
    | none => .error (.mistake ("invalid value for --" ++ name))

variable (o : Options)

/-- The options with one more that has a value. -/
def assign (flag : Flag) (text : String) : Except Request Options :=
  match flag with
  | .rom => do return { o with rom := ← fill "rom" o.rom (path? text) }
  | .list => do return { o with list := ← fill "list" o.list (path? text) }
  | .disassemble => do
    return { o with disassemble := ← fill "disassemble" o.disassemble (path? text) }
  | .cycleMicros => do
    return { o with cycleMicros := ← fill "cycle-micros" o.cycleMicros (unsigned? (wordCount 64) text) }
  | .scale => do return { o with scale := ← fill "scale" o.scale (signed? (wordCount 32) text) }
  | .seed => do return { o with seed := ← fill "seed" o.seed (unsigned? (wordCount 64) text) }
  | .verbose | .help | .version => .error (.mistake "unexpected value")

/-- The options with one more that has no value. Help and the version are given at once. -/
def switch (flag : Flag) : Except Request Options :=
  match flag with
  | .verbose => .ok { o with verbosity := o.verbosity + 1 }
  | .help => .error .help
  | .version => .error .version
  | _ => .error (.mistake "a value is required")

/-- What the options ask for: exactly one of three things. -/
def request : Request :=
  match o.rom, o.list, o.disassemble with
  | some path, none, none => .run path o
  | none, some path, none => .list path
  | none, none, some path => .disassemble path
  | none, none, none => .mistake "one of --rom, --list and --disassemble is required"
  | _, _, _ => .mistake "--rom, --list and --disassemble exclude each other"

end Options

namespace CommandLine

/-- How far the arguments have been read. -/
structure Progress where
  /-- The options given so far. -/
  options : Options
  /-- An option whose value has to follow in the next argument. -/
  pending : Option Flag
  /-- Whether two dashes have ended the options. -/
  closed : Bool

/-- The text behind an equals sign at its start, or the whole text. -/
def dropEquals : List Char → List Char
  | '=' :: text => text
  | text => text

/-- Reads one-letter options behind one dash. -/
def readLetters (o : Options) : List Char → Except Request Progress
  | [] => .ok ⟨o, none, false⟩
  | c :: cs =>
    match Flag.ofLetter? c with
    | none => .error (.mistake ("unexpected argument -" ++ c.toString))
    | some flag =>
      if flag.takesValue then
        if cs.isEmpty then .ok ⟨o, some flag, false⟩
        else do return ⟨← o.assign flag (String.ofList (dropEquals cs)), none, false⟩
      else do readLetters (← o.switch flag) cs

/-- Reads a long option behind two dashes. -/
def readLong (o : Options) (text : List Char) : Except Request Progress :=
  let name := String.ofList (text.takeWhile (· != '='))
  match Flag.ofName? name, text.dropWhile (· != '=') with
  | none, _ => .error (.mistake ("unexpected argument --" ++ name))
  | some flag, [] =>
    if flag.takesValue then .ok ⟨o, some flag, false⟩
    else do return ⟨← o.switch flag, none, false⟩
  | some flag, _ :: value => do return ⟨← o.assign flag (String.ofList value), none, false⟩

/-- Reads one argument. -/
def readArgument (p : Progress) (argument : String) : Except Request Progress :=
  if p.closed then .error (.mistake ("unexpected argument " ++ argument))
  else
    match p.pending, argument.toList with
    | some _, '-' :: _ :: _ => .error (.mistake "a value is required")
    | some flag, _ => do return ⟨← p.options.assign flag argument, none, false⟩
    | none, ['-', '-'] => .ok { p with closed := true }
    | none, '-' :: '-' :: text => readLong p.options text
    | none, '-' :: c :: cs => readLetters p.options (c :: cs)
    | none, _ => .error (.mistake ("unexpected argument " ++ argument))

/-- The request that arguments make. The first mistake counts, unless help or the version is
asked for before it. -/
def parse (arguments : List String) : Request :=
  match arguments.foldlM readArgument ⟨.empty, none, false⟩ with
  | .error request => request
  | .ok ⟨_, some _, _⟩ => .mistake "a value is required"
  | .ok ⟨options, none, _⟩ => options.request

end CommandLine

end ChipEight
