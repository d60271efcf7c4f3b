import ChipEight.Word

/-!
# The keypad

Sixteen keys, named by hexadecimal digits. A key may be given as any byte; its low digit counts.

* `Keypad`, `Keypad.isDown` : which keys are held down;
* `Keypad.press`, `Keypad.release` : one key going down or up;
* `Keypad.freshBits`, `Keypad.freshKey?` : the keys that have gone down since an earlier look, and
  the least of them.
-/

namespace ChipEight

/-- Which keys are held down: bit `k` stands for key `k`. -/
structure Keypad where
  /-- One bit for each key. -/
  bits : BitVec 16
deriving DecidableEq, Repr

namespace Keypad

/-- No key is down. -/
def empty : Keypad := ⟨0⟩

/-- The key that a byte names. -/
def keyOf (b : Byte) : Digit := b.setWidth 4

/-- The mask of a key. -/
def mask (k : Digit) : BitVec 16 := BitVec.twoPow 16 k.toNat

variable (p : Keypad)

/-- Whether key `k` is down. -/
def holds (k : Digit) : Bool := p.bits.getLsbD k.toNat

/-- Whether the key that a byte names is down. -/
def isDown (key : Byte) : Bool := p.holds (keyOf key)

/-- The keypad after a key has gone down. -/
def press (key : Byte) : Keypad := ⟨p.bits ||| mask (keyOf key)⟩

/-- The keypad after a key has gone up. -/
def release (key : Byte) : Keypad := ⟨p.bits &&& ~~~mask (keyOf key)⟩

/-- The keys that are down now and were up in `previous`, one bit for each. -/
def freshBits (previous : Keypad) : BitVec 16 := p.bits &&& ~~~previous.bits

/-- The least key that is down now and was up in `previous`. -/
def freshKey? (previous : Keypad) : Option Digit :=
  (allWords 4).find? fun k => p.holds k && !previous.holds k

/-! ### The view through `holds` -/

theorem getLsbD_mask (k j : Digit) : (mask k).getLsbD j.toNat = decide (j = k) := by
  have hj : j.toNat < 16 := j.isLt
  have hk : k.toNat < 16 := k.isLt
  simp only [mask, BitVec.getLsbD_twoPow, ← BitVec.toNat_inj, hk, decide_true, Bool.true_and]
  exact decide_eq_decide.2 eq_comm

theorem holds_press (key : Byte) (k : Digit) :
    (p.press key).holds k = (decide (k = keyOf key) || p.holds k) := by
  rw [holds, press, BitVec.getLsbD_or, getLsbD_mask, Bool.or_comm, holds]

theorem holds_release (key : Byte) (k : Digit) :
    (p.release key).holds k = (!decide (k = keyOf key) && p.holds k) := by
  have hk : k.toNat < 16 := k.isLt
  rw [holds, release, BitVec.getLsbD_and, BitVec.getLsbD_not, getLsbD_mask, Bool.and_comm, holds]
  simp [hk]

/-! ### Fresh keys -/

variable {p} {q : Keypad}

theorem getLsbD_freshBits (k : Digit) :
    (p.freshBits q).getLsbD k.toNat = (p.holds k && !q.holds k) := by
  have hk : k.toNat < 16 := k.isLt
  simp [freshBits, holds, hk]

theorem freshBits_eq_zero : p.freshBits q = 0 ↔ ∀ k, (p.holds k && !q.holds k) = false := by
  constructor
  · intro h k
    rw [← getLsbD_freshBits, h]
    simp
  · intro h
    refine BitVec.eq_of_getLsbD_eq fun i hi => ?_
    have hk := getLsbD_freshBits (p := p) (q := q) (BitVec.ofNat 4 i)
    rw [h, BitVec.toNat_ofNat, Nat.mod_eq_of_lt hi] at hk
    simpa using hk

theorem freshKey?_eq_none : p.freshKey? q = none ↔ p.freshBits q = 0 := by
  rw [freshKey?, find?_allWords_eq_none, freshBits_eq_zero]

end Keypad

end ChipEight
