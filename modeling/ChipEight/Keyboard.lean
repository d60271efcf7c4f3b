import ChipEight.Word

/-!
# The keyboard

The sixteen keys of the keypad lie on the left four columns of a keyboard, in the same places as
on the keypad:

```text
1 2 3 C      1 2 3 4
4 5 6 D      Q W E R
7 8 9 E      A S D F
A 0 B F      Z X C V
```

* `keyboardLayout` : the characters of the keyboard and their keys;
* `keypadKey?` : the key that a character is bound to.
-/

namespace ChipEight

/-- The characters that are bound to keys, in the order of the keypad's rows. -/
def keyboardLayout : List (Char × Digit) :=
  [('1', 0x1), ('2', 0x2), ('3', 0x3), ('4', 0xC),
   ('q', 0x4), ('w', 0x5), ('e', 0x6), ('r', 0xD),
   ('a', 0x7), ('s', 0x8), ('d', 0x9), ('f', 0xE),
   ('z', 0xA), ('x', 0x0), ('c', 0xB), ('v', 0xF)]

/-- The key that the character with a given code is bound to. -/
def keypadKey? (code : Int) : Option Digit :=
  (keyboardLayout.find? fun binding => (binding.1.toNat : Int) == code).map (·.2)

end ChipEight
