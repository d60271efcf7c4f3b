import ChipEight.Proofs.Checks.State

/-!
# Checked loops

The instructions that go through several places one after the other: drawing, storing and loading.
In each pass of their loops every access, sum, shift and rotation is checked. What the passes so far
have done is what the instruction as a whole would do with fewer places, and the passes follow each
other without a failed check.

* `PlainState.draw?` : drawing row by row;
* `PlainState.storeRegisters?`, `PlainState.storeDecimal?` : storing byte by byte;
* `PlainState.loadRegisters?` : loading register by register;
* `Sprite.cover_concat`, `Frame.draw_concat`, `Frame.collides_concat` : one more row of a sprite;
* `PlainState.agrees_draw?`, `PlainState.agrees_storeRegisters?`, `PlainState.agrees_storeDecimal?`,
  `PlainState.agrees_loadRegisters?` : the loops pass their checks.
-/

namespace ChipEight

/-! ### Drawing -/

namespace Sprite

variable {column : BitVec 6} {top y : BitVec 5} {sprite : List Byte} {b : Byte}

theorem toNat_sub_eq_length_iff (h : sprite.length < 32) :
    (y - top).toNat = sprite.length ↔ y = top + BitVec.ofNat 5 sprite.length := by
  rw [toNat_sub_eq_iff h, ← BitVec.toNat_inj, BitVec.toNat_add, BitVec.toNat_ofNat, Nat.add_mod_mod]
  rfl

/-- The rows of a sprite end before the next row begins. -/
theorem cover_next (h : sprite.length < 32) :
    cover column top sprite (top + BitVec.ofNat 5 sprite.length) = 0 := by
  rw [cover, (toNat_sub_eq_length_iff h).2 rfl, List.getElem?_eq_none (Nat.le_refl _)]

/-- One more row of a sprite covers one more row of the display. -/
theorem cover_concat (h : sprite.length < 32) :
    cover column top (sprite ++ [b]) y =
      if y = top + BitVec.ofNat 5 sprite.length then row column b
      else cover column top sprite y := by
  by_cases hy : y = top + BitVec.ofNat 5 sprite.length
  · rw [if_pos hy, cover, (toNat_sub_eq_length_iff h).2 hy, List.getElem?_concat_length]
  · have hne : (y - top).toNat ≠ sprite.length := mt (toNat_sub_eq_length_iff h).1 hy
    rw [if_neg hy, cover, cover, List.getElem?_append]
    by_cases hlt : (y - top).toNat < sprite.length
    · rw [if_pos hlt]
    · have hone : 1 ≤ (y - top).toNat - sprite.length := by omega
      rw [if_neg hlt, List.getElem?_eq_none hone, List.getElem?_eq_none (Nat.not_lt.1 hlt)]

/-- A byte at the left end of a row is one that has been shifted there. -/
theorem row_eq (column : BitVec 6) (b : Byte) :
    row column b = ((b.setWidth 64 : Row) <<< 56).rotateRight column.toNat := by
  have hbyte : (b ++ (0 : BitVec 56) : BitVec (8 + 56)) = (b.setWidth 64 : Row) <<< 56 := by
    refine BitVec.eq_of_toNat_eq ?_
    have := b.isLt
    rw [BitVec.toNat_append, BitVec.toNat_shiftLeft, BitVec.toNat_setWidth_of_le (by decide),
      Nat.shiftLeft_eq]
    change b.toNat * 2 ^ 56 ||| 0 = b.toNat * 2 ^ 56 % 2 ^ 64
    rw [Nat.or_zero]
    omega
  rw [row, hbyte]

end Sprite

namespace Frame

variable {f : Frame} {column : BitVec 6} {top : BitVec 5} {sprite : List Byte} {b : Byte}

/-- Drawing one more row inverts pixels of the row of the display on which it falls. -/
theorem draw_concat (h : sprite.length < 32) :
    f.draw column top (sprite ++ [b]) =
      (f.draw column top sprite).set (top + BitVec.ofNat 5 sprite.length)
        (f.get (top + BitVec.ofNat 5 sprite.length) ^^^ Sprite.row column b) := by
  refine Bank.ext fun y => ?_
  rw [draw, draw, Bank.get_ofFn, Sprite.cover_concat h, Bank.get_set, Bank.get_ofFn]
  by_cases hy : y = top + BitVec.ofNat 5 sprite.length
  · rw [if_pos hy, if_pos hy.symm, hy]
  · rw [if_neg hy, if_neg (Ne.symm hy)]

variable (f column top) in
theorem get_draw_next (h : sprite.length < 32) :
    (f.draw column top sprite).get (top + BitVec.ofNat 5 sprite.length) =
      f.get (top + BitVec.ofNat 5 sprite.length) := by
  rw [draw, Bank.get_ofFn, Sprite.cover_next h]
  exact BitVec.xor_zero

theorem collides_iff_exists_row :
    f.collides column top sprite = true ↔
      ∃ y, f.get y &&& Sprite.cover column top sprite y ≠ 0 := by
  rw [collides, List.any_eq_true]
  simp only [mem_allWords, true_and, bne_iff_ne]

theorem collides_concat (h : sprite.length < 32) :
    f.collides column top (sprite ++ [b]) = true ↔
      f.collides column top sprite = true ∨
        f.get (top + BitVec.ofNat 5 sprite.length) &&& Sprite.row column b ≠ 0 := by
  simp only [collides_iff_exists_row, Sprite.cover_concat h]
  constructor
  · rintro ⟨y, hy⟩
    by_cases hrow : y = top + BitVec.ofNat 5 sprite.length
    · rw [if_pos hrow, hrow] at hy
      exact .inr hy
    · rw [if_neg hrow] at hy
      exact .inl ⟨y, hy⟩
  · rintro (⟨y, hy⟩ | hy)
    · refine ⟨y, ?_⟩
      rw [if_neg]
      · exact hy
      · rintro rfl
        rw [Sprite.cover_next h] at hy
        exact hy BitVec.and_zero
    · exact ⟨_, by rwa [if_pos rfl]⟩

end Frame

namespace PlainState

variable (s : PlainState)

/-- Draws the row with number `k` of a sprite, and adds to the pixels of which it has put out a lit
one. -/
def drawRow? (column : Nat) (top : Byte) (drawn : Frame × Row) (k : Nat) :
    Option (Frame × Row) := do
  let b ← s.readByte? (s.index + BitVec.ofNat 16 k)
  let shifted ← shiftLeft? (b.setWidth 64 : Row) 56
  let pattern ← rotateRight? shifted column
  let place ← add? (top.setWidth 16 : Word) (BitVec.ofNat 16 k)
  let row ← drawn.1.get? (place.toNat % 32)
  let frame ← drawn.1.set? (place.toNat % 32) (row ^^^ pattern)
  some (frame, drawn.2 ||| (row &&& pattern))

/-- Draws the sprite of `n` rows at the index register. -/
def draw? (x y n : Byte) : Option (Outcome PlainState) := do
  let column ← s.register? x
  let top ← s.register? y
  let drawn ← (List.range n.toNat).foldlM (s.drawRow? (column.toNat % 64) top) (s.frame, 0)
  let s ← { s with frame := drawn.1 }.setRegister? 0xF (Byte.ofBool (drawn.2 != 0))
  some (.done s)

/-- The row of the display on which a row of a sprite falls: the sum fits a word. -/
theorem place_eq (top : Byte) {k : Nat} (h : k < 16) :
    add? (top.setWidth 16 : Word) (BitVec.ofNat 16 k) =
        some (top.setWidth 16 + BitVec.ofNat 16 k) ∧
      (top.setWidth 16 + BitVec.ofNat 16 k : Word).toNat % 32 =
        (top.setWidth 5 + BitVec.ofNat 5 k : BitVec 5).toNat := by
  have htop := top.isLt
  have hwide : (top.setWidth 16 : Word).toNat = top.toNat :=
    BitVec.toNat_setWidth_of_le (by decide)
  have hk : (BitVec.ofNat 16 k).toNat = k := Nat.mod_eq_of_lt (by omega)
  refine ⟨add?_eq_some ?_, ?_⟩
  · rw [hwide, hk]
    change top.toNat + k < 65536
    omega
  · rw [BitVec.toNat_add, hwide, hk, BitVec.toNat_add, BitVec.toNat_setWidth, BitVec.toNat_ofNat]
    omega

/-- A byte of a sprite is shifted to the left end of a row and rotated to its column. -/
theorem pattern_eq (column b : Byte) :
    rotateRight? ((b.setWidth 64 : Row) <<< 56) (column.toNat % 64) =
      some (Sprite.row (column.setWidth 6) b) := by
  have hcolumn : column.toNat % 64 = (column.setWidth 6).toNat :=
    (BitVec.toNat_setWidth 6 column).symm
  rw [rotateRight?_eq_some (Nat.mod_lt _ (by decide)), hcolumn, ← Sprite.row_eq]

variable {s} {limit : Nat}

/-- What has been drawn after `k` rows, and whether a lit pixel has gone out. -/
structure Drawn (s : PlainState) (column top : Byte) (k : Nat) (drawn : Frame × Row) : Prop where
  frame_eq : drawn.1 =
    s.frame.draw (column.setWidth 6) (top.setWidth 5) (s.memory.read s.index.address k)
  collision_iff : drawn.2 ≠ 0 ↔
    s.frame.collides (column.setWidth 6) (top.setWidth 5) (s.memory.read s.index.address k) = true

theorem drawn_zero (s : PlainState) (column top : Byte) : s.Drawn column top 0 (s.frame, 0) where
  frame_eq := by
    refine Bank.ext fun y => ?_
    rw [Frame.draw, Bank.get_ofFn]
    exact BitVec.xor_zero.symm
  collision_iff := by simp [Frame.collides_iff_exists_row, Memory.read, Sprite.cover]

/-- A row is drawn below the ones drawn before. -/
theorem Drawn.next {column top : Byte} {k : Nat} {drawn : Frame × Row} (hk : k < 16)
    (h : s.Drawn column top k drawn) :
    ∃ next, s.drawRow? (column.toNat % 64) top drawn k = some next ∧
      s.Drawn column top (k + 1) next := by
  obtain ⟨frame, collision⟩ := drawn
  obtain ⟨hplace, hrow⟩ := place_eq top hk
  have hlen : (s.memory.read s.index.address k).length = k := by simp [Memory.read]
  have hlt : (s.memory.read s.index.address k).length < 32 := by omega
  have hget : frame.get (top.setWidth 5 + BitVec.ofNat 5 k) =
      s.frame.get (top.setWidth 5 + BitVec.ofNat 5 k) := by
    have hrows := s.frame.get_draw_next (column.setWidth 6) (top.setWidth 5) hlt
    rwa [hlen, ← h.frame_eq] at hrows
  let pattern := Sprite.row (column.setWidth 6)
    (s.memory.get (s.index.address + BitVec.ofNat 12 k))
  refine ⟨(frame.set (top.setWidth 5 + BitVec.ofNat 5 k)
      (s.frame.get (top.setWidth 5 + BitVec.ofNat 5 k) ^^^ pattern),
    collision ||| (s.frame.get (top.setWidth 5 + BitVec.ofNat 5 k) &&& pattern)), ?_, ?_, ?_⟩
  · simp only [drawRow?, readByte?_eq_some, Word.address_offset, hplace, hrow, pattern_eq, hget,
      shiftLeft?_eq_some (show 56 < 64 by decide), Option.bind_eq_bind, Option.bind_some,
      Bank.get?_toNat, Bank.set?_toNat, pattern]
  · rw [Memory.read_succ, Frame.draw_concat hlt, hlen, ← h.frame_eq]
  · have hor (a b : Row) : a ||| b ≠ 0 ↔ a ≠ 0 ∨ b ≠ 0 :=
      (not_congr BitVec.or_eq_zero_iff).trans Classical.not_and_iff_not_or_not
    rw [Memory.read_succ, Frame.collides_concat hlt, hlen, ← h.collision_iff, hor]

theorem agrees_draw? (h : s.Bounded limit) (x y n : Digit) :
    Agrees limit (s.draw? (x.setWidth 8) (y.setWidth 8) (n.setWidth 8))
      (.done (s.view.draw x y n)) := by
  obtain ⟨⟨frame, collision⟩, hrun, hframe, hcollision⟩ := foldlM_range_some
    (drawn_zero s (s.registers.get x) (s.registers.get y)) n.toNat
    fun k hk drawn hdrawn => hdrawn.next (Nat.lt_trans hk n.isLt)
  obtain rfl : frame = _ := hframe
  have hflag : Byte.ofBool (collision != 0) = Byte.ofBool (s.frame.collides
      ((s.registers.get x).setWidth 6) ((s.registers.get y).setWidth 5) (s.view.sprite n)) := by
    congr 1
    rw [Bool.eq_iff_iff, bne_iff_ne]
    exact hcollision
  have hregister : (0xF : Byte) = flagRegister.setWidth 8 := rfl
  simp only [draw?, register?_digit, toNat_setWidth_digit, hrun, hregister, setRegister?_digit,
    hflag, Option.bind_eq_bind, Option.bind_some]
  exact ⟨_, rfl, h, rfl⟩

/-! ### Storing -/

/-- What is left when some bytes have been stored from the index register on. -/
def stored (s : PlainState) (bytes : List Byte) : Outcome PlainState :=
  .reported { s with memory := s.memory.storeAll (Memory.cells s.index.address bytes) }
    ((Memory.cells s.index.address bytes).filterMap s.view.dropReport?)

/-- Stores the next byte, after what has been stored already. -/
def storeNext? (o : Outcome PlainState) (offset : Word) (v : Byte) : Option (Outcome PlainState) :=
  (o.state.writeByte? (o.state.index + offset) v).map (Outcome.after o.log)

/-- Stores the register with number `k`, after what has been stored already. -/
def storeRegister? (o : Outcome PlainState) (k : Nat) : Option (Outcome PlainState) := do
  let v ← o.state.register? (BitVec.ofNat 8 k)
  storeNext? o (BitVec.ofNat 16 k) v

variable (s) in
/-- Stores registers 0 to `x` at the index register. -/
def storeRegisters? (x : Byte) : Option (Outcome PlainState) :=
  (List.range (x.toNat + 1)).foldlM storeRegister? (.done s)

variable (s) in
/-- Stores the hundreds, tens and ones of register `x` at the index register. The offset is counted
up after each of them. -/
def storeDecimal? (x : Byte) : Option (Outcome PlainState) := do
  let v ← s.register? x
  let last ← [v / 100, v / 10 % 10, v % 10].foldlM
    (fun (offset, o) digit => do
      let o ← storeNext? o offset digit
      let offset ← add? offset 1
      some (offset, o))
    (0, .done s)
  some last.2

theorem stored_nil (s : PlainState) : s.stored [] = .done s := rfl

/-- One more byte goes to the next address. -/
theorem storeNext?_stored (s : PlainState) (bytes : List Byte) (v : Byte) :
    storeNext? (s.stored bytes) (BitVec.ofNat 16 bytes.length) v =
      some (s.stored (bytes ++ [v])) := by
  have hreport (c : Address × Byte) :
      [c].filterMap s.view.dropReport? = (s.view.dropReport? c).toList := by
    cases h : s.view.dropReport? c with
    | none => rw [List.filterMap_cons_none h]; rfl
    | some e => rw [List.filterMap_cons_some h]; rfl
  simp only [storeNext?, writeByte?_eq_some, Word.address_offset, stored, Outcome.state_reported,
    Memory.cells_concat, Memory.storeAll_concat, List.filterMap_append, hreport]
  rfl

theorem agrees_stored (h : s.Bounded limit) (bytes : List Byte) :
    Agrees limit (some (s.stored bytes)) (s.view.storeAtIndex bytes) :=
  ⟨_, rfl, h, rfl⟩

theorem ofNat_eq_setWidth {k : Nat} (h : k < 16) :
    BitVec.ofNat 8 k = (BitVec.ofNat 4 k).setWidth 8 := by
  refine BitVec.eq_of_toNat_eq ?_
  rw [toNat_setWidth_digit, BitVec.toNat_ofNat, BitVec.toNat_ofNat]
  omega

theorem take_registers (registers : Registers) {k : Nat} (h : k < 16) :
    registers.toList.take (k + 1) =
      registers.toList.take k ++ [registers.get (BitVec.ofNat 4 k)] := by
  rw [List.take_add_one, Bank.getElem?_toList _ h]
  rfl

theorem storeRegister?_stored (s : PlainState) {k : Nat} (h : k < 16) :
    storeRegister? (s.stored (s.registers.toList.take k)) k =
      some (s.stored (s.registers.toList.take (k + 1))) := by
  have hregister : (s.stored (s.registers.toList.take k)).state.register? (BitVec.ofNat 8 k) =
      some (s.registers.get (BitVec.ofNat 4 k)) := by
    rw [ofNat_eq_setWidth h]
    exact register?_digit _ _
  have hstore := s.storeNext?_stored (s.registers.toList.take k)
    (s.registers.get (BitVec.ofNat 4 k))
  rw [Bank.length_take_toList _ (Nat.le_of_lt h), ← take_registers _ h] at hstore
  rw [storeRegister?, hregister]
  exact hstore

theorem agrees_storeRegisters? (h : s.Bounded limit) (x : Digit) :
    Agrees limit (s.storeRegisters? (x.setWidth 8))
      (s.view.storeAtIndex (s.registers.toList.take (x.toNat + 1))) := by
  have hx : x.toNat < 16 := x.isLt
  obtain ⟨o, hrun, rfl⟩ := foldlM_range_some
    (P := fun k o => o = s.stored (s.registers.toList.take k)) (stored_nil s).symm (x.toNat + 1)
    (by
      rintro k hk o rfl
      have hk16 : k < 16 := by omega
      exact ⟨_, s.storeRegister?_stored hk16, rfl⟩)
  rw [storeRegisters?, toNat_setWidth_digit, hrun]
  exact agrees_stored h _

theorem agrees_storeDecimal? (h : s.Bounded limit) (x : Digit) :
    Agrees limit (s.storeDecimal? (x.setWidth 8))
      (s.view.storeAtIndex (Byte.decimalDigits (s.registers.get x))) := by
  have h₀ (v : Byte) : storeNext? (.done s) 0 v = some (s.stored [v]) := s.storeNext?_stored [] v
  have h₁ (u v : Byte) : storeNext? (s.stored [u]) 1 v = some (s.stored [u, v]) :=
    s.storeNext?_stored [u] v
  have h₂ (t u v : Byte) : storeNext? (s.stored [t, u]) 2 v = some (s.stored [t, u, v]) :=
    s.storeNext?_stored [t, u] v
  have hoffset : add? (0 : Word) 1 = some 1 ∧ add? (1 : Word) 1 = some 2 ∧
      add? (2 : Word) 1 = some 3 := by decide
  simp only [storeDecimal?, register?_digit, List.foldlM_cons, List.foldlM_nil, h₀, h₁, h₂,
    hoffset, Option.bind_eq_bind, Option.bind_some, Option.pure_def]
  exact agrees_stored h _

/-! ### Loading -/

/-- Loads the register with number `k` from its place behind the index register. -/
def loadRegister? (s : PlainState) (k : Nat) : Option PlainState := do
  let v ← s.readByte? (s.index + BitVec.ofNat 16 k)
  s.setRegister? (BitVec.ofNat 8 k) v

variable (s) in
/-- Loads registers 0 to `x` from the bytes at the index register. -/
def loadRegisters? (x : Byte) : Option (Outcome PlainState) := do
  let s ← (List.range (x.toNat + 1)).foldlM loadRegister? s
  some (.done s)

/-- The registers when the first `k` of them have been loaded. -/
def loadedRegisters (s : PlainState) (k : Nat) : Registers :=
  Bank.ofFn fun r =>
    if r.toNat < k then s.memory.get (s.index.address + r.setWidth 12) else s.registers.get r

theorem loadedRegisters_zero (s : PlainState) : s.loadedRegisters 0 = s.registers := by
  refine Bank.ext fun r => ?_
  rw [loadedRegisters, Bank.get_ofFn, if_neg (Nat.not_lt_zero _)]

theorem loadedRegisters_succ (s : PlainState) {k : Nat} (h : k < 16) :
    s.loadedRegisters (k + 1) =
      (s.loadedRegisters k).set (BitVec.ofNat 4 k)
        (s.memory.get (s.index.address + BitVec.ofNat 12 k)) := by
  have hk : (BitVec.ofNat 4 k).toNat = k := Nat.mod_eq_of_lt h
  refine Bank.ext fun r => ?_
  rw [Bank.get_set, loadedRegisters, loadedRegisters, Bank.get_ofFn, Bank.get_ofFn]
  by_cases hr : BitVec.ofNat 4 k = r
  · subst hr
    have hwide : (BitVec.ofNat 4 k).setWidth 12 = BitVec.ofNat 12 k := by
      rw [← BitVec.ofNat_toNat, hk]
    rw [if_pos rfl, hk, if_pos (Nat.lt_succ_self k), hwide]
  · have hne : r.toNat ≠ k := fun hrk => hr (BitVec.eq_of_toNat_eq (hk.trans hrk.symm))
    have hlt : r.toNat < k + 1 ↔ r.toNat < k := by omega
    simp only [if_neg hr, hlt]

theorem loadRegister?_loaded (s : PlainState) {k : Nat} (h : k < 16) :
    ({ s with registers := s.loadedRegisters k } : PlainState).loadRegister? k =
      some { s with registers := s.loadedRegisters (k + 1) } := by
  rw [loadRegister?, readByte?_eq_some, Word.address_offset, ofNat_eq_setWidth h,
    loadedRegisters_succ s h]
  exact setRegister?_digit _ _ _

theorem agrees_loadRegisters? (h : s.Bounded limit) (x : Digit) :
    Agrees limit (s.loadRegisters? (x.setWidth 8)) (.done (s.view.loadRegisters x)) := by
  have hx : x.toNat < 16 := x.isLt
  obtain ⟨t, hrun, rfl⟩ := foldlM_range_some
    (P := fun k t => t = { s with registers := s.loadedRegisters k })
    (by rw [loadedRegisters_zero]) (x.toNat + 1)
    (by
      rintro k hk t rfl
      have hk16 : k < 16 := by omega
      exact ⟨_, s.loadRegister?_loaded hk16, rfl⟩)
  have hregisters : s.loadedRegisters (x.toNat + 1) = Bank.ofFn fun r =>
      if r ≤ x then s.memory.get (s.index.address + r.setWidth 12) else s.registers.get r := by
    simp only [loadedRegisters, Nat.lt_succ_iff, BitVec.le_def]
  have hview : ({ s with registers := s.loadedRegisters (x.toNat + 1) } : PlainState).view =
      s.view.loadRegisters x := by
    rw [hregisters]
    simp only [view, State.loadRegisters]
  rw [loadRegisters?, toNat_setWidth_digit, hrun, ← hview]
  exact agrees_done (h.withRegisters _)

end PlainState

end ChipEight
