import ChipEight.Word

/-!
# The layout of the machine

The sizes of the machine's parts and the font that it is born with. The lowest `0x200` bytes of
memory are reserved: they hold the font, sixteen glyphs of five rows each, and programs start
above them.

* `programStart`, `maxRomSize`, `isProgramAddress` : where a program is put, how long it may be
  and which places it may occupy;
* `stackSize`, `registerCount`, `displayWidth`, `displayHeight` : the other parts;
* `flagRegister` : the register that arithmetic and drawing report in;
* `font`, `glyphSize` : the glyphs of the hexadecimal digits.
-/

namespace ChipEight

/-- The number of bytes of memory, one for each address. -/
def memorySize : Nat := wordCount 12

/-- The low bits of a word that form an address. -/
def addressMask : Nat := memorySize - 1

/-- The first address that a program may occupy, jump to or write. -/
def programStart : Address := 0x200

/-- The longest program: it fills memory from `programStart` to the end. -/
def maxRomSize : Nat := memorySize - programStart.toNat

/-- Whether a program may occupy the place that a word names. A word above all addresses names no
place. -/
def isProgramAddress (w : Word) : Bool :=
  decide (programStart.toNat ≤ w.toNat) && decide (w.toNat < memorySize)

theorem memorySize_eq : memorySize = 0x1000 := rfl

theorem isProgramAddress_iff {w : Word} :
    isProgramAddress w = true ↔ 0x200 ≤ w.toNat ∧ w.toNat < 0x1000 := by
  rw [isProgramAddress, Bool.and_eq_true, decide_eq_true_eq, decide_eq_true_eq, memorySize_eq]
  rfl

theorem isProgramAddress_address_iff {a : Address} :
    isProgramAddress (a.setWidth 16) = true ↔ 0x200 ≤ a.toNat := by
  have := a.isLt
  rw [isProgramAddress_iff, BitVec.toNat_setWidth_of_le (by decide)]
  omega

/-- The number of return addresses that the call stack holds. -/
def stackSize : Nat := 16

/-- The number of registers. -/
def registerCount : Nat := wordCount 4

/-- The register for carries, borrows, shifted-out bits and collisions. -/
def flagRegister : Digit := 0xF

/-- The pixels of a row. -/
def displayWidth : Nat := 64

/-- The rows of the display. -/
def displayHeight : Nat := 32

/-- The rows of a glyph of the font. -/
def glyphSize : Nat := 5

/-- The glyphs of the digits 0 to F in order, each four pixels wide and `glyphSize` rows tall. -/
def font : List Byte :=
  [0xF0, 0x90, 0x90, 0x90, 0xF0,
   0x20, 0x60, 0x20, 0x20, 0x70,
   0xF0, 0x10, 0xF0, 0x80, 0xF0,
   0xF0, 0x10, 0xF0, 0x10, 0xF0,
   0x90, 0x90, 0xF0, 0x10, 0x10,
   0xF0, 0x80, 0xF0, 0x10, 0xF0,
   0xF0, 0x80, 0xF0, 0x90, 0xF0,
   0xF0, 0x10, 0x20, 0x40, 0x40,
   0xF0, 0x90, 0xF0, 0x90, 0xF0,
   0xF0, 0x90, 0xF0, 0x10, 0xF0,
   0xF0, 0x90, 0xF0, 0x90, 0x90,
   0xE0, 0x90, 0xE0, 0x90, 0xE0,
   0xF0, 0x80, 0x80, 0x80, 0xF0,
   0xE0, 0x90, 0x90, 0x90, 0xE0,
   0xF0, 0x80, 0xF0, 0x80, 0xF0,
   0xF0, 0x80, 0xF0, 0x80, 0x80]

theorem length_font : font.length = wordCount 4 * glyphSize := rfl

/-- The address of the glyph of a digit. -/
def glyphAddress (d : Digit) : Address := BitVec.ofNat 12 (d.toNat * glyphSize)

end ChipEight
