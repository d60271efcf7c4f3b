import ChipEight.Word

/-!
# Hexadecimal numerals

Addresses, words and bytes are written in upper-case hexadecimal with at least a given number of
digits; a number that needs more digits gets them.

* `Hex.digits` : the digits of a number without leading zeros;
* `Hex.numeral`, `Hex.prefixed` : at least so many digits, bare or after `0x`;
* `padRight` : text filled up with blanks to a column width.
-/

namespace ChipEight

namespace Hex

/-- The upper-case hexadecimal digits of `n`, most significant first; `0` has one digit. -/
def digits (n : Nat) : List Char := (Nat.toDigits 16 n).map Char.toUpper

/-- The numeral of `n`, with zeros in front up to `width` digits. -/
def numeral (width n : Nat) : String := String.ofList ((digits n).leftpad width '0')

/-- The numeral of `n` behind the mark `0x`. -/
def prefixed (width n : Nat) : String := "0x" ++ numeral width n

end Hex

/-- The one digit of a hexadecimal digit. -/
def Digit.text (d : Digit) : String := Hex.numeral 1 d.toNat

/-- A byte with its two digits, behind `0x`. -/
def Byte.text (b : Byte) : String := Hex.prefixed 2 b.toNat

/-- An address with its three digits, behind `0x`. -/
def Address.text (a : Address) : String := Hex.prefixed 3 a.toNat

/-- A word with its four digits, behind `0x`. -/
def Word.text (w : Word) : String := Hex.prefixed 4 w.toNat

/-- The text followed by blanks up to `width` characters. -/
def padRight (width : Nat) (s : String) : String := String.ofList (s.toList.rightpad width ' ')

end ChipEight
