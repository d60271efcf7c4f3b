/-!
# Durations in words

A duration is a number of nanoseconds. It is written in the largest unit that is not longer than
the duration, as a decimal fraction with no more digits than it needs: `2ms`, `1.5µs`, `3600s`,
and `0ns` for no time at all.

* `TimeUnit`, `timeUnits` : the units that are longer than a nanosecond;
* `TimeUnit.text` : a duration as a decimal fraction of a unit;
* `Duration.text` : a duration in its own unit.
-/

namespace ChipEight

/-- A unit of time. -/
structure TimeUnit where
  /-- Its length in nanoseconds. -/
  length : Nat
  /-- The decimal places that a nanosecond takes as a fraction of the unit. -/
  places : Nat
  /-- Its symbol. -/
  symbol : String
deriving DecidableEq, Repr

namespace TimeUnit

/-- The second. -/
def second : TimeUnit := ⟨1000000000, 9, "s"⟩

/-- The millisecond. -/
def millisecond : TimeUnit := ⟨1000000, 6, "ms"⟩

/-- The microsecond. -/
def microsecond : TimeUnit := ⟨1000, 3, "µs"⟩

variable (u : TimeUnit)

/-- The digits after the point of `n` nanoseconds: one for each place, less the zeros at their
end. -/
def fraction (n : Nat) : List Char :=
  let digits := (Nat.toDigits 10 (n % u.length)).leftpad u.places '0'
  (digits.reverse.dropWhile (· == '0')).reverse

/-- The duration of `n` nanoseconds in the unit, exact and without a point if it is whole. -/
def text (n : Nat) : String :=
  let whole := toString (n / u.length)
  let number :=
    if n % u.length = 0 then whole else whole ++ "." ++ String.ofList (u.fraction n)
  number ++ u.symbol

end TimeUnit

/-- The units longer than a nanosecond, the longest first. -/
def timeUnits : List TimeUnit := [.second, .millisecond, .microsecond]

/-- The duration of `n` nanoseconds, in the largest unit that is not longer. -/
def Duration.text (n : Nat) : String :=
  match timeUnits.find? fun u => u.length ≤ n with
  | some u => u.text n
  | none => toString n ++ "ns"

end ChipEight
