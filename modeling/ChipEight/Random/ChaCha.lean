/-!
# The ChaCha stream of numbers

A block function turns a key of eight numbers and the number of a block into sixteen numbers; the
blocks follow each other without end. There are twelve rounds, the block number has 64 bits and
the stream number is zero.

* `ChaCha.quarterRound`, `ChaCha.doubleRound` : the steps of the block function;
* `ChaCha.block`, `ChaCha.stream` : the numbers of a block, and those of all blocks in a row;
* `ChaCha.keyOfSeed` : the key that a seed stands for.
-/

namespace ChipEight

namespace ChaCha

/-- The sixteen numbers that the rounds work on. -/
abbrev Matrix := Vector UInt32 16

/-- The number rotated to the left by `k` bits, for `k` from 1 to 31. -/
def rotateLeft (v k : UInt32) : UInt32 := (v <<< k) ||| (v >>> (32 - k))

/-- Four steps that mix the numbers at four places. -/
def quarterRound (m : Matrix) (a b c d : Fin 16) : Matrix :=
  let va := m.get a + m.get b
  let vd := rotateLeft (m.get d ^^^ va) 16
  let vc := m.get c + vd
  let vb := rotateLeft (m.get b ^^^ vc) 12
  let va := va + vb
  let vd := rotateLeft (vd ^^^ va) 8
  let vc := vc + vd
  let vb := rotateLeft (vb ^^^ vc) 7
  (((m.set a va).set b vb).set c vc).set d vd

/-- Two rounds: one down the columns, one along the diagonals. -/
def doubleRound (m : Matrix) : Matrix :=
  let m := quarterRound m 0 4 8 12
  let m := quarterRound m 1 5 9 13
  let m := quarterRound m 2 6 10 14
  let m := quarterRound m 3 7 11 15
  let m := quarterRound m 0 5 10 15
  let m := quarterRound m 1 6 11 12
  let m := quarterRound m 2 7 8 13
  quarterRound m 3 4 9 14

/-- The numbers that every block starts with. -/
def constants : Vector UInt32 4 := #v[0x61707865, 0x3320646e, 0x79622d32, 0x6b206574]

/-- The block number, low half first, and the stream number zero. -/
def position (number : UInt64) : Vector UInt32 4 :=
  #v[number.toUInt32, (number >>> 32).toUInt32, 0, 0]

/-- The start of a block: the constants, the key and the position. -/
def start (key : Vector UInt32 8) (number : UInt64) : Matrix :=
  constants ++ key ++ position number

/-- The result of applying `f` to `a` `n` times. -/
def iterate {α : Type} (f : α → α) : Nat → α → α
  | 0, a => a
  | n + 1, a => iterate f n (f a)

/-- The numbers of a block. -/
def block (key : Vector UInt32 8) (number : UInt64) : Matrix :=
  let first := start key number
  Vector.zipWith (· + ·) (iterate doubleRound 6 first) first

/-- The `k`-th number of the stream. -/
def stream (key : Vector UInt32 8) (k : Nat) : UInt32 :=
  (block key (UInt64.ofNat (k / 16))).get (Fin.ofNat 16 k)

/-! ### Keys from seeds -/

/-- The next state of the generator that makes keys. -/
def advanceSeed (s : UInt64) : UInt64 := s * 6364136223846793005 + 11634580027462260723

/-- The number that the generator gives in a state: some of its bits, rotated to the right by the
amount in its highest five. -/
def outputOfSeed (s : UInt64) : UInt32 :=
  let mixed := (((s >>> 18) ^^^ s) >>> 27).toUInt32
  let turn := (s >>> 59).toUInt32
  (mixed >>> turn) ||| (mixed <<< ((32 - turn) % 32))

/-- The first `n` numbers after a state of the generator. -/
def expandSeed : (n : Nat) → UInt64 → Vector UInt32 n
  | 0, _ => #v[]
  | n + 1, s =>
    let s := advanceSeed s
    (#v[outputOfSeed s] ++ expandSeed n s).cast (Nat.add_comm 1 n)

/-- The key that a seed stands for. -/
def keyOfSeed (seed : UInt64) : Vector UInt32 8 := expandSeed 8 seed

end ChaCha

end ChipEight
