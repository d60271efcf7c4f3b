import ChipEight.Bank
import ChipEight.Layout

/-!
# Frames

The display has 32 rows of 64 pixels, each lit or not. A row is a word whose most significant bit
is its leftmost pixel. A sprite is a list of bytes, one for each of its rows, eight pixels wide;
drawing inverts the pixels that the sprite covers, and a sprite that leaves the display on one
side comes back on the other.

* `Row`, `Frame`, `Frame.pixel` : the display and one pixel of it;
* `Sprite.row`, `Sprite.cover` : the pixels that a sprite covers;
* `Frame.draw`, `Frame.collides` : inverting them, and whether a lit pixel is among them.
-/

namespace ChipEight

/-- The pixels of a row, the leftmost in the most significant bit. -/
abbrev Row := BitVec 64

/-- The rows of the display, from top to bottom. -/
abbrev Frame := Bank 5 Row

namespace Sprite

/-- The pixels that one row of a sprite covers when its left edge is at `column`: the byte at the
left end of the row, rotated to the right. -/
def row (column : BitVec 6) (b : Byte) : Row :=
  BitVec.rotateRight (b ++ (0 : BitVec 56) : BitVec (8 + 56)) column.toNat

/-- The pixels that a sprite with its top left corner at `column` and `top` covers in row `y`. A
sprite is no taller than the display, so at most one of its rows falls on row `y`. -/
def cover (column : BitVec 6) (top : BitVec 5) (sprite : List Byte) (y : BitVec 5) : Row :=
  match sprite[(y - top).toNat]? with
  | some b => row column b
  | none => 0

end Sprite

namespace Frame

/-- No pixel is lit. -/
def blank : Frame := Bank.replicate 0

variable (f : Frame)

/-- Whether the pixel in column `x` of row `y` is lit. -/
def pixel (x : BitVec 6) (y : BitVec 5) : Bool := (f.get y).getMsbD x.toNat

/-- The frame with the pixels that the sprite covers inverted. -/
def draw (column : BitVec 6) (top : BitVec 5) (sprite : List Byte) : Frame :=
  Bank.ofFn fun y => f.get y ^^^ Sprite.cover column top sprite y

/-- Whether the sprite covers a lit pixel. -/
def collides (column : BitVec 6) (top : BitVec 5) (sprite : List Byte) : Bool :=
  (allWords 5).any fun y => f.get y &&& Sprite.cover column top sprite y != 0

end Frame

end ChipEight
