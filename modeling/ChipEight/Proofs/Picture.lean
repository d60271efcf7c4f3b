import ChipEight.Frame.Texture
import Mathlib.Data.Finset.Prod

/-!
# Pictures show their frames

The picture of a frame is made by putting lists together: three bytes for a pixel, 64 pixels for a
row and 32 rows for the frame. All lists that are put together at one time have the same length, so
the place of a byte tells its row, its column and its colour. Nothing is lost: a frame can be had
back from its picture, and where two frames differ in a pixel, their pictures differ in the three
bytes of that pixel and in no others.

What follows from the places of the bytes is told of any list of bytes that has them there, and the
picture is one such list.

* `getElem?_flatMap`, `length_flatMap` : lists of the same length put together;
* `Frame.Depicts`, `Frame.depicts_texture` : the places of the bytes, and that the picture keeps
  to them;
* `Frame.ofTexture`, `Frame.Depicts.ofTexture_eq` : the frame of a picture;
* `Frame.pixelsApart`, `Frame.bytesApart`, `Frame.Depicts.card_bytesApart` : where frames and
  pictures differ;
* `Frame.texture_faithful` : the result.
-/

namespace ChipEight

/-! ### Lists of the same length put together -/

section

variable {α β : Type} {g : α → List β} {n : Nat}

theorem getElem?_flatMap (h : ∀ a, (g a).length = n) (l : List α) (i : Nat) {j : Nat}
    (hj : j < n) : (l.flatMap g)[n * i + j]? = l[i]?.bind fun a => (g a)[j]? := by
  induction l generalizing i with
  | nil => rfl
  | cons a l ih =>
    rw [List.flatMap_cons]
    cases i with
    | zero =>
      rw [Nat.mul_zero, Nat.zero_add, List.getElem?_append_left (by rwa [h])]
      rfl
    | succ i =>
      have hskip : n * (i + 1) + j = (g a).length + (n * i + j) := by
        rw [h, Nat.mul_succ]
        omega
      rw [hskip, List.getElem?_append_right (Nat.le_add_right ..), Nat.add_sub_cancel_left, ih]
      rfl

theorem length_flatMap (h : ∀ a, (g a).length = n) (l : List α) :
    (l.flatMap g).length = n * l.length := by
  rw [List.length_flatMap]
  simp only [h, List.map_const', List.sum_replicate_nat, Nat.mul_comm]

end

/-! ### The bytes of a row -/

namespace Row

/-- The bytes of the pixels of a row. -/
def bytes (r : Row) : List Byte :=
  (pixels r).flatMap fun lit => List.replicate 3 (brightness lit)

/-- The row whose pixels are lit as told, from left to right. -/
def ofPixels (lit : Nat → Bool) : Row :=
  (BitVec.ofBoolListBE ((List.range displayWidth).map lit)).cast (by simp [displayWidth])

theorem length_bytes (r : Row) : (bytes r).length = 192 := by
  rw [bytes, length_flatMap fun _ => List.length_replicate, pixels, List.length_map,
    List.length_range]
  rfl

theorem getElem?_bytes (r : Row) {x c : Nat} (hx : x < displayWidth) (hc : c < 3) :
    (bytes r)[3 * x + c]? = some (brightness (r.getMsbD x)) := by
  rw [bytes, getElem?_flatMap (fun _ => List.length_replicate) _ _ hc, pixels, List.getElem?_map,
    List.getElem?_range hx]
  exact List.getElem?_replicate_of_lt hc

theorem getMsbD_ofPixels (lit : Nat → Bool) {x : Nat} (hx : x < displayWidth) :
    (ofPixels lit).getMsbD x = lit x := by
  rw [ofPixels, BitVec.getMsbD_cast, BitVec.getMsbD_ofBoolListBE, List.getD_eq_getElem?_getD,
    List.getElem?_map, List.getElem?_range hx]
  rfl

end Row

namespace Frame

/-! ### The places of the bytes -/

/-- Whether the pixel in column `x` of row `y` is lit: the bit of the row that is so far from its
left end. -/
def lit (f : Frame) (y x : Nat) : Bool := (f.get (BitVec.ofNat 5 y)).getLsbD (63 - x)

/-- The bytes show the frame: three for each pixel, row after row from the top and each row from
the left. -/
structure Depicts (f : Frame) (bytes : List Byte) : Prop where
  /-- There are no other bytes. -/
  length_eq : bytes.length = 6144
  /-- A pixel that is lit is white, any other black. -/
  byte_eq : ∀ y < 32, ∀ x < 64, ∀ c < 3,
    bytes[3 * (64 * y + x) + c]? = some (if f.lit y x then 255 else 0)

/-- The frame that a picture shows. -/
def ofTexture (bytes : List Byte) : Frame :=
  Bank.ofFn fun y => Row.ofPixels fun x => bytes[3 * (64 * y.toNat + x)]? == some 255

/-- The pixels in which two frames differ, as rows and columns. -/
def pixelsApart (f g : Frame) : Finset (Nat × Nat) :=
  (Finset.range 32 ×ˢ Finset.range 64).filter fun p => f.lit p.1 p.2 ≠ g.lit p.1 p.2

/-- The places of the bytes in which two pictures differ. -/
def bytesApart (bytes bytes' : List Byte) : Finset Nat :=
  (Finset.range 6144).filter fun i => bytes[i]? ≠ bytes'[i]?

variable {f g : Frame} {bytes bytes' : List Byte} {y x c : Nat}

theorem lit_eq_getMsbD (f : Frame) (y : Nat) (hx : x < 64) :
    f.lit y x = (f.get (BitVec.ofNat 5 y)).getMsbD x := by
  rw [lit, BitVec.getMsbD_eq_getLsbD, decide_eq_true hx, Bool.true_and]

theorem depicts_texture (f : Frame) : f.Depicts f.texture where
  length_eq := by
    change (f.toList.flatMap Row.bytes).length = 6144
    rw [length_flatMap Row.length_bytes, Bank.length_toList]
    rfl
  byte_eq y hy x hx c hc := by
    have hplace : 3 * (64 * y + x) + c = 192 * y + (3 * x + c) := by omega
    change (f.toList.flatMap Row.bytes)[3 * (64 * y + x) + c]? = _
    rw [hplace, getElem?_flatMap Row.length_bytes _ _ (by omega), Bank.getElem?_toList f hy,
      lit_eq_getMsbD f y hx]
    exact Row.getElem?_bytes _ hx hc

/-! ### What the picture tells of the frame -/

/-- A frame can be had back from its picture. -/
theorem Depicts.ofTexture_eq (h : f.Depicts bytes) : ofTexture bytes = f := by
  refine Bank.ext fun y => BitVec.eq_of_getMsbD_eq fun x hx => ?_
  have hbyte := h.byte_eq y.toNat y.isLt x hx 0 (by decide)
  have hlit : f.lit y.toNat x = (f.get y).getMsbD x := by
    rw [lit_eq_getMsbD f _ hx, BitVec.ofNat_toNat, BitVec.setWidth_eq]
  rw [Nat.add_zero] at hbyte
  rw [ofTexture, Bank.get_ofFn, Row.getMsbD_ofPixels _ hx, hbyte, ← hlit]
  cases f.lit y.toNat x with
  | true => rfl
  | false => rfl

theorem mem_pixelsApart (hy : y < 32) (hx : x < 64) :
    (y, x) ∈ f.pixelsApart g ↔ f.lit y x ≠ g.lit y x := by
  rw [pixelsApart, Finset.mem_filter, Finset.mem_product, Finset.mem_range, Finset.mem_range]
  exact and_iff_right ⟨hy, hx⟩

/-- The pictures differ in a byte just if the frames differ in its pixel. -/
theorem Depicts.mem_bytesApart (h : f.Depicts bytes) (h' : g.Depicts bytes') (hy : y < 32)
    (hx : x < 64) (hc : c < 3) :
    3 * (64 * y + x) + c ∈ bytesApart bytes bytes' ↔ (y, x) ∈ f.pixelsApart g := by
  have hplace : 3 * (64 * y + x) + c < 6144 := by omega
  rw [bytesApart, Finset.mem_filter, Finset.mem_range, and_iff_right hplace,
    h.byte_eq y hy x hx c hc, h'.byte_eq y hy x hx c hc, mem_pixelsApart hy hx]
  cases f.lit y x <;> cases g.lit y x <;> decide

/-- Each pixel in which the frames differ accounts for three bytes. -/
theorem Depicts.card_bytesApart (h : f.Depicts bytes) (h' : g.Depicts bytes') :
    (bytesApart bytes bytes').card = 3 * (f.pixelsApart g).card := by
  have hcard : (f.pixelsApart g ×ˢ Finset.range 3).card = (bytesApart bytes bytes').card := by
    refine Finset.card_bij' (fun q _ => 3 * (64 * q.1.1 + q.1.2) + q.2)
      (fun i _ => ((i / 192, i / 3 % 64), i % 3)) ?_ ?_ ?_ ?_
    · rintro ⟨⟨y, x⟩, c⟩ hq
      obtain ⟨hp, hc⟩ := Finset.mem_product.1 hq
      obtain ⟨hy, hx⟩ := Finset.mem_product.1 (Finset.mem_filter.1 hp).1
      exact (h.mem_bytesApart h' (Finset.mem_range.1 hy) (Finset.mem_range.1 hx)
        (Finset.mem_range.1 hc)).2 hp
    · intro i hi
      have hlt : i < 6144 := Finset.mem_range.1 (Finset.mem_filter.1 hi).1
      have hplace : i = 3 * (64 * (i / 192) + i / 3 % 64) + i % 3 := by omega
      rw [hplace, h.mem_bytesApart h' (by omega) (by omega) (by omega)] at hi
      exact Finset.mem_product.2 ⟨hi, Finset.mem_range.2 (by omega)⟩
    · rintro ⟨⟨y, x⟩, c⟩ hq
      obtain ⟨hp, hc⟩ := Finset.mem_product.1 hq
      obtain ⟨-, hx⟩ := Finset.mem_product.1 (Finset.mem_filter.1 hp).1
      have hx : x < 64 := Finset.mem_range.1 hx
      have hc : c < 3 := Finset.mem_range.1 hc
      have hrow : (3 * (64 * y + x) + c) / 192 = y := by omega
      have hcolumn : (3 * (64 * y + x) + c) / 3 % 64 = x := by omega
      have hcolour : (3 * (64 * y + x) + c) % 3 = c := by omega
      exact Prod.ext (Prod.ext hrow hcolumn) hcolour
    · intro i _
      change 3 * (64 * (i / 192) + i / 3 % 64) + i % 3 = i
      omega
  rw [← hcard, Finset.card_product, Finset.card_range, Nat.mul_comm]

/-- **The picture is faithful.** It has three bytes for each pixel, at the places that the row and
the column tell, white if the pixel is lit and else black. The frame can be had back from it, so
no two frames have the same picture; and the pictures of two frames differ in the three bytes of
each pixel in which the frames differ, and in no others. -/
theorem texture_faithful :
    (∀ f : Frame, f.Depicts f.texture ∧ ofTexture f.texture = f) ∧
      Function.Injective texture ∧
      ∀ f g : Frame,
        (∀ y < 32, ∀ x < 64, ∀ c < 3,
          3 * (64 * y + x) + c ∈ bytesApart f.texture g.texture ↔ (y, x) ∈ f.pixelsApart g) ∧
        (bytesApart f.texture g.texture).card = 3 * (f.pixelsApart g).card := by
  have hback (f : Frame) : ofTexture f.texture = f := f.depicts_texture.ofTexture_eq
  refine ⟨fun f => ⟨f.depicts_texture, hback f⟩, fun f g h => ?_, fun f g => ⟨?_, ?_⟩⟩
  · rw [← hback f, h, hback g]
  · intro y hy x hx c hc
    exact f.depicts_texture.mem_bytesApart g.depicts_texture hy hx hc
  · exact f.depicts_texture.card_bytesApart g.depicts_texture

end Frame

end ChipEight
