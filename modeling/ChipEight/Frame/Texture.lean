import ChipEight.Frame.Basic

/-!
# The picture of a frame

A graphics library takes a picture as one sequence of bytes, a red, a green and a blue one for
each pixel, row after row from the top and each row from the left. Lit pixels are white and all
others black.

* `Row.pixels` : the pixels of a row from left to right;
* `Frame.texture` : the picture of a frame.
-/

namespace ChipEight

/-- The pixels of a row, from left to right. -/
def Row.pixels (r : Row) : List Bool := (List.range displayWidth).map r.getMsbD

/-- The brightness of a pixel in each of the three colours. -/
def brightness (lit : Bool) : Byte := if lit then 255 else 0

/-- The bytes of the picture of a frame. -/
def Frame.texture (f : Frame) : List Byte :=
  f.toList.flatMap fun r => (Row.pixels r).flatMap fun lit => List.replicate 3 (brightness lit)

end ChipEight
