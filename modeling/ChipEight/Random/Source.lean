import ChipEight.Word
import ChipEight.Random.ChaCha

/-!
# Sources of random numbers

A source is an endless stream of 32-bit numbers together with the count of those already taken.

* `RandomSource` : the stream and the count;
* `RandomSource.ofSeed`, `RandomSource.ofList` : the stream of a seed, and a given one;
* `RandomSource.byte`, `RandomSource.advance` : the next random byte, and the source without it.
-/

namespace ChipEight

/-- A stream of numbers of which the first `used` have been taken. -/
structure RandomSource where
  /-- All numbers of the stream, from the first on. -/
  stream : Nat → UInt32
  /-- How many have been taken. -/
  used : Nat

namespace RandomSource

/-- The source that a seed stands for; equal seeds give equal numbers. -/
def ofSeed (seed : UInt64) : RandomSource :=
  let key := ChaCha.keyOfSeed seed
  ⟨fun k => ChaCha.stream key k, 0⟩

/-- The source with the given numbers, followed by zeros. -/
def ofList (numbers : List UInt32) : RandomSource := ⟨fun k => numbers.getD k 0, 0⟩

variable (r : RandomSource)

/-- The byte that the source gives as its `k`-th: the low byte of the number. -/
def byteAt (k : Nat) : Byte := (r.stream k).toBitVec.setWidth 8

/-- The next random byte. -/
def byte : Byte := r.byteAt r.used

/-- The source after a byte has been taken. -/
def advance : RandomSource := { r with used := r.used + 1 }

end RandomSource

end ChipEight
