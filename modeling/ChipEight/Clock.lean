/-!
# The timer clock

The timers tick at a fixed period of wall time, however often the processor advances. A clock is
told how much time has passed and answers how many ticks have fallen due; what is left of a
period is carried over to the next time.

* `Clock` : a period and the time carried over, in nanoseconds;
* `Clock.advance` : the ticks that fall due, and the clock afterwards;
* `Clock.advanceAll` : the answers to one stretch of time after the other.
-/

namespace ChipEight

/-- A clock that ticks once in every period. -/
structure Clock where
  /-- The nanoseconds between two ticks; a clock with period 0 stands still. -/
  period : Nat
  /-- The nanoseconds that have passed since the last tick. -/
  carried : Nat
deriving DecidableEq, Repr

namespace Clock

/-- A clock that starts now. -/
def new (period : Nat) : Clock := ⟨period, 0⟩

/-- The ticks that fall due when `elapsed` more nanoseconds have passed, and the clock then. -/
def advance (c : Clock) (elapsed : Nat) : Nat × Clock :=
  if c.period = 0 then (0, c)
  else ((c.carried + elapsed) / c.period, { c with carried := (c.carried + elapsed) % c.period })

/-- The ticks that fall due after each stretch of time. -/
def advanceAll (c : Clock) : List Nat → List Nat
  | [] => []
  | elapsed :: rest => (c.advance elapsed).1 :: advanceAll (c.advance elapsed).2 rest

end Clock

end ChipEight
