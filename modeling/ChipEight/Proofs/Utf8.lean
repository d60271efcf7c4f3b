import Mathlib.Data.List.Induction

/-!
# Texts as bytes

The bytes of a text are those of its UTF-8 form, in which a character takes one to four bytes. Two
properties of this form matter where names are compared byte by byte.

It keeps the order of texts. The first byte tells how many bytes a character takes, and of two
characters the one that takes more is the greater one and has the greater first byte. In the same
number of bytes the code points are compared from the front, six bits at a time.

And a plain character, one below `0x80`, takes one byte, which is no part of any longer character.
So if the bytes of a text end in those of plain characters, the text ends in these characters. The
last byte is enough to see this, which is why the induction runs from the end.

* `utf8`, `utf8_eq_bytes` : the bytes of a text, which are those of its characters in a row;
* `Utf8.shape`, `Utf8.spread`, `Utf8.encode_eq` : how a code point is spread over bytes;
* `Utf8.encode_append_lt` : the bytes of a lesser character are less, whatever follows;
* `Utf8.exists_eq_append_of_bytes` : bytes that end in those of plain characters;
* `utf8_lt_iff` : the order of texts is that of their bytes.
-/

namespace ChipEight

/-- The bytes of a text. -/
def utf8 (s : String) : List UInt8 := s.toByteArray.data.toList

namespace Utf8

open String (utf8EncodeChar)

/-- What the last `n` groups of six bits leave of a code point. -/
def lead : Nat → Nat → Nat
  | 0, v => v
  | n + 1, v => lead n (v / 64)

/-- A byte for a mark and the front of a code point, and `n` bytes for six bits each. -/
def spread (mark : Nat) : Nat → Nat → List UInt8
  | 0, v => [UInt8.ofNat (mark + v)]
  | n + 1, v => spread mark n (v / 64) ++ [UInt8.ofNat (0x80 + v % 64)]

/-- The mark in the first byte of a code point, and the number of bytes that follow. -/
def shape (v : Nat) : Nat × Nat :=
  if v ≤ 0x7F then (0, 0)
  else if v ≤ 0x7FF then (0xC0, 1)
  else if v ≤ 0xFFFF then (0xE0, 2)
  else (0xF0, 3)

/-- The number in the first byte of a code point. -/
def firstByte (v : Nat) : Nat := (shape v).1 + lead (shape v).2 v

/-! ### Bytes -/

theorem cons_lt_cons {m n : Nat} (h : m < n) (hn : n < 0x100) (s t : List UInt8) :
    UInt8.ofNat m :: s < UInt8.ofNat n :: t := by
  refine List.cons_lt_cons_iff.2 (.inl ?_)
  rw [UInt8.lt_iff_toNat_lt, UInt8.toNat_ofNat_of_lt' (Nat.lt_trans h hn),
    UInt8.toNat_ofNat_of_lt' hn]
  exact h

theorem ofNat_inj {m n : Nat} (hm : m < 0x100) (hn : n < 0x100)
    (h : UInt8.ofNat m = UInt8.ofNat n) : m = n := by
  have := congrArg UInt8.toNat h
  rwa [UInt8.toNat_ofNat_of_lt' hm, UInt8.toNat_ofNat_of_lt' hn] at this

theorem exists_spread_eq_cons (mark n v : Nat) :
    ∃ rest, spread mark n v = UInt8.ofNat (mark + lead n v) :: rest := by
  induction n generalizing v with
  | zero => exact ⟨[], rfl⟩
  | succ n ih =>
    obtain ⟨rest, h⟩ := ih (v / 64)
    exact ⟨rest ++ [UInt8.ofNat (0x80 + v % 64)], by rw [spread, h]; rfl⟩

/-- In the same shape, the code points are compared from the front. -/
theorem spread_append_lt {mark n v w : Nat} (h : v < w) (hw : mark + lead n w < 0x100)
    (s t : List UInt8) : spread mark n v ++ s < spread mark n w ++ t := by
  induction n generalizing v w s t with
  | zero => exact cons_lt_cons (Nat.add_lt_add_left h mark) hw s t
  | succ n ih =>
    -- the bits in front decide, and if they are the same, the last six do
    rw [spread, spread, List.append_assoc, List.append_assoc]
    rcases Nat.lt_or_eq_of_le (Nat.div_le_div_right (c := 64) (Nat.le_of_lt h)) with hlt | heq
    · exact ih hlt hw _ _
    · rw [heq]
      exact List.append_left_lt (cons_lt_cons (by omega) (by omega) s t)

/-! ### Code points -/

theorem shape_cases (v : Nat) :
    v ≤ 0x7F ∧ shape v = (0, 0) ∨
      0x7F < v ∧ v ≤ 0x7FF ∧ shape v = (0xC0, 1) ∨
      0x7FF < v ∧ v ≤ 0xFFFF ∧ shape v = (0xE0, 2) ∨
      0xFFFF < v ∧ shape v = (0xF0, 3) := by
  unfold shape
  split
  next h => exact .inl ⟨h, rfl⟩
  next h₁ =>
    split
    next h => exact .inr (.inl ⟨Nat.lt_of_not_le h₁, h, rfl⟩)
    next h₂ =>
      split
      next h => exact .inr (.inr (.inl ⟨Nat.lt_of_not_le h₂, h, rfl⟩))
      next h₃ => exact .inr (.inr (.inr ⟨Nat.lt_of_not_le h₃, rfl⟩))

theorem firstByte_lt {v : Nat} (h : v < 0x110000) : firstByte v < 0x100 := by
  rcases shape_cases v with ⟨_, hv⟩ | ⟨_, _, hv⟩ | ⟨_, _, hv⟩ | ⟨_, hv⟩ <;>
    simp only [firstByte, hv, lead] <;> omega

/-- Of two code points in different shapes, the lesser one has the lesser first byte. -/
theorem firstByte_lt_firstByte {v w : Nat} (h : v < w) (hs : shape v ≠ shape w) :
    firstByte v < firstByte w := by
  rcases shape_cases v with ⟨_, hv⟩ | ⟨_, _, hv⟩ | ⟨_, _, hv⟩ | ⟨_, hv⟩ <;>
    rcases shape_cases w with ⟨_, hw⟩ | ⟨_, _, hw⟩ | ⟨_, _, hw⟩ | ⟨_, hw⟩ <;>
      simp only [firstByte, hv, hw, lead, ne_eq, not_true_eq_false] at hs ⊢ <;> omega

theorem toNat_lt (c : Char) : c.toNat < 0x110000 := by
  have h : c.toNat < 0xD800 ∨ 0xDFFF < c.toNat ∧ c.toNat < 0x110000 := c.valid
  omega

theorem encode_eq (c : Char) :
    utf8EncodeChar c = spread (shape c.toNat).1 (shape c.toNat).2 c.toNat := by
  have hc : c.val.toNat < 0x110000 := toNat_lt c
  simp only [utf8EncodeChar, Char.toNat]
  generalize c.val.toNat = v at *
  rcases shape_cases v with ⟨h, hv⟩ | ⟨_, h, hv⟩ | ⟨_, _, hv⟩ | ⟨_, hv⟩
  · rw [if_pos h, hv, spread, Nat.zero_add]
  · have hlead : v / 64 % 32 + 0xC0 = 0xC0 + v / 64 := by omega
    rw [if_neg (by omega), if_pos h, hv, hlead, Nat.add_comm _ 0x80]
    rfl
  · have hlead : v / 4096 % 16 + 0xE0 = 0xE0 + v / 64 / 64 := by omega
    rw [if_neg (by omega), if_neg (by omega), if_pos (by omega), hv, hlead, Nat.add_comm _ 0x80,
      Nat.add_comm _ 0x80]
    rfl
  · have hlead : v / 262144 % 8 + 0xF0 = 0xF0 + v / 64 / 64 / 64 := by omega
    have hnext : v / 4096 = v / 64 / 64 := by omega
    rw [if_neg (by omega), if_neg (by omega), if_neg (by omega), hv, hlead, hnext,
      Nat.add_comm _ 0x80, Nat.add_comm _ 0x80, Nat.add_comm _ 0x80]
    rfl

/-! ### Characters -/

theorem exists_encode_eq_cons (c : Char) :
    ∃ rest, utf8EncodeChar c = UInt8.ofNat (firstByte c.toNat) :: rest := by
  rw [encode_eq]
  exact exists_spread_eq_cons _ _ _

/-- The bytes of a lesser character are less, whatever follows. -/
theorem encode_append_lt {c d : Char} (h : c < d) (s t : List UInt8) :
    utf8EncodeChar c ++ s < utf8EncodeChar d ++ t := by
  have hd := firstByte_lt (toNat_lt d)
  by_cases hs : shape c.toNat = shape d.toNat
  · rw [encode_eq, encode_eq, hs]
    exact spread_append_lt h hd s t
  · obtain ⟨cs, hcs⟩ := exists_encode_eq_cons c
    obtain ⟨ds, hds⟩ := exists_encode_eq_cons d
    rw [hcs, hds]
    exact cons_lt_cons (firstByte_lt_firstByte h hs) hd _ _

theorem encode_of_plain {c : Char} (h : c.toNat ≤ 0x7F) :
    utf8EncodeChar c = [UInt8.ofNat c.toNat] := by
  rw [encode_eq, shape, if_pos h, spread, Nat.zero_add]

/-- The bytes of a character that is not plain end in one that no plain character has. -/
theorem exists_encode_eq_concat {c : Char} (h : 0x7F < c.toNat) :
    ∃ front k, utf8EncodeChar c = front ++ [UInt8.ofNat k] ∧ 0x7F < k ∧ k < 0x100 := by
  have hspread (mark n : Nat) :
      ∃ front k, spread mark (n + 1) c.toNat = front ++ [UInt8.ofNat k] ∧ 0x7F < k ∧ k < 0x100 :=
    ⟨spread mark n (c.toNat / 64), 0x80 + c.toNat % 64, rfl, by omega, by omega⟩
  rw [encode_eq]
  rcases shape_cases c.toNat with ⟨hle, -⟩ | ⟨-, -, hc⟩ | ⟨-, -, hc⟩ | ⟨-, hc⟩
  · omega
  · rw [hc]; exact hspread _ _
  · rw [hc]; exact hspread _ _
  · rw [hc]; exact hspread _ _

/-! ### Texts -/

/-- The bytes of some characters. -/
def bytes (cs : List Char) : List UInt8 := cs.flatMap utf8EncodeChar

theorem bytes_append (cs ds : List Char) : bytes (cs ++ ds) = bytes cs ++ bytes ds :=
  List.flatMap_append

theorem bytes_cons (c : Char) (cs : List Char) : bytes (c :: cs) = utf8EncodeChar c ++ bytes cs :=
  List.flatMap_cons

theorem bytes_singleton (c : Char) : bytes [c] = utf8EncodeChar c := by
  rw [bytes_cons]
  exact List.append_nil _

theorem bytes_lt {cs ds : List Char} (h : cs < ds) : bytes cs < bytes ds := by
  induction h with
  | @nil d ds =>
    obtain ⟨rest, hrest⟩ := exists_encode_eq_cons d
    rw [bytes_cons, hrest]
    exact List.nil_lt_cons _ _
  | rel h =>
    rw [bytes_cons, bytes_cons]
    exact encode_append_lt h _ _
  | cons _ ih =>
    rw [bytes_cons, bytes_cons]
    exact List.append_left_lt ih

/-- Only a plain character ends in the byte of a plain character. -/
theorem encode_concat_inj {c a : Char} {front tail : List UInt8} (ha : a.toNat ≤ 0x7F)
    (h : tail ++ utf8EncodeChar c = front ++ utf8EncodeChar a) : c = a ∧ tail = front := by
  rw [encode_of_plain ha] at h
  by_cases hc : c.toNat ≤ 0x7F
  · rw [encode_of_plain hc] at h
    obtain ⟨hfront, hlast⟩ := List.append_inj' h rfl
    exact ⟨Char.toNat_inj.1 (ofNat_inj (by omega) (by omega) (List.singleton_inj.1 hlast)), hfront⟩
  · obtain ⟨rest, k, hrest, hk, hlt⟩ := exists_encode_eq_concat (Nat.lt_of_not_le hc)
    rw [hrest, ← List.append_assoc] at h
    have hlast := ofNat_inj hlt (by omega) (List.singleton_inj.1 (List.append_inj' h rfl).2)
    omega

/-- Characters whose bytes end in those of plain characters end in these characters. -/
theorem exists_eq_append_of_bytes {cs as : List Char} {front : List UInt8}
    (ha : ∀ a ∈ as, a.toNat ≤ 0x7F) (h : bytes cs = front ++ bytes as) :
    ∃ ds, cs = ds ++ as ∧ bytes ds = front := by
  induction as using List.reverseRecOn generalizing cs with
  | nil => exact ⟨cs, (List.append_nil cs).symm, by rw [h]; exact List.append_nil front⟩
  | append_singleton as a ih =>
    have ha' : a.toNat ≤ 0x7F := ha a (by simp)
    rw [bytes_append, bytes_singleton, ← List.append_assoc] at h
    rcases List.eq_nil_or_concat cs with rfl | ⟨ds, c, rfl⟩
    · rw [encode_of_plain ha'] at h
      simp [bytes] at h
    · rw [List.concat_eq_append, bytes_append, bytes_singleton] at h
      obtain ⟨rfl, hrest⟩ := encode_concat_inj ha' h
      obtain ⟨es, rfl, hes⟩ := ih (fun b hb => ha b (by simp [hb])) hrest
      exact ⟨es, by simp, hes⟩

end Utf8

section

variable {a b : String}

theorem utf8_eq_bytes (s : String) : utf8 s = Utf8.bytes s.toList := by
  rw [utf8, ← String.utf8Encode_toList, List.utf8Encode, Utf8.bytes]
  simp

theorem utf8_append (a b : String) : utf8 (a ++ b) = utf8 a ++ utf8 b := by
  rw [utf8_eq_bytes, String.toList_append, Utf8.bytes_append, ← utf8_eq_bytes, ← utf8_eq_bytes]

theorem utf8_lt (h : a < b) : utf8 a < utf8 b := by
  rw [utf8_eq_bytes, utf8_eq_bytes]
  exact Utf8.bytes_lt (String.lt_iff.1 h)

/-- The order of texts is that of their bytes. -/
theorem utf8_lt_iff : utf8 a < utf8 b ↔ a < b := by
  refine ⟨fun h => ?_, utf8_lt⟩
  by_contra hab
  have hba : b ≤ a := String.not_lt.1 hab
  by_cases heq : a = b
  · rw [heq] at h
    exact List.lt_irrefl _ h
  · have hlt : b < a := String.not_le.1 fun hle => heq (String.le_antisymm hle hba)
    exact List.lt_asymm h (utf8_lt hlt)

theorem utf8_injective (h : utf8 a = utf8 b) : a = b :=
  String.toByteArray_inj.1 (congrArg ByteArray.mk (Array.toList_inj.1 h))

end

end ChipEight
