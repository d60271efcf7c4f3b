import ChipEight.Word

/-!
# Reading a program

A program arrives in pieces. An interrupted read is tried again, an empty piece is the end, and
any other failure spoils what has been read.

* `ReadEvent` : what one read gives;
* `ReadEvent.collect` : the whole program, or the reason of the failure.
-/

namespace ChipEight

/-- What one read gives. -/
inductive ReadEvent where
  /-- Some bytes; none at the end. -/
  | chunk (bytes : List Byte)
  /-- Nothing, because the read was interrupted. -/
  | interrupted
  /-- A failure. -/
  | failed (reason : String)
deriving DecidableEq, Repr

/-- The bytes up to the end, or the reason why they could not be read. -/
def ReadEvent.collect : List ReadEvent → Except String (List Byte)
  | [] => .ok []
  | .chunk bytes :: rest => if bytes.isEmpty then .ok [] else (collect rest).map (bytes ++ ·)
  | .interrupted :: rest => collect rest
  | .failed reason :: _ => .error reason

end ChipEight
