import ChipEight.Layout
import ChipEight.Text.Hex

/-!
# Faults

What ends a session. The site of a fault is the address of the instruction word that failed.

* `Fault` : the causes;
* `Fault.message` : the report of each.
-/

namespace ChipEight

/-- The cause of a failure. -/
inductive Fault where
  /-- A jump out of the part of memory that programs occupy. -/
  | invalidJumpTarget (target : Word) (site : Address)
  /-- A program of `size` bytes does not fit into memory. -/
  | romTooLarge (size : Nat)
  /-- A call with a full call stack. -/
  | stackOverflow (site : Address)
  /-- A return with an empty call stack. -/
  | stackUnderflow (site : Address)
  /-- A word outside the instruction set. -/
  | unknownInstruction (op : Word) (site : Address)
  /-- A call of a native routine. -/
  | notImplemented (op : Word) (site : Address)
  /-- A program could not be read. -/
  | unreadable (reason : String)
deriving DecidableEq, Repr

/-- The report of a fault. -/
def Fault.message : Fault → String
  | invalidJumpTarget target site =>
    "invalid jump target " ++ Hex.prefixed 3 target.toNat ++ " at " ++ Address.text site
  | romTooLarge size =>
    "ROM is too large (" ++ toString size ++ " bytes), max size is " ++ toString maxRomSize ++
      " bytes"
  | stackOverflow site =>
    "stack overflow: call at " ++ Address.text site ++ " with a full call stack"
  | stackUnderflow site =>
    "stack underflow: return at " ++ Address.text site ++ " with an empty call stack"
  | unknownInstruction op site =>
    "unknown instruction " ++ Word.text op ++ " at " ++ Address.text site
  | notImplemented op site =>
    "instruction " ++ Word.text op ++ " at " ++ Address.text site ++ " is not implemented"
  | unreadable reason => "unable to read ROM: " ++ reason

end ChipEight
