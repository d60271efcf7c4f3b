import ChipEight.Proofs.Checks.Loops

/-!
# Checked execution

The instruction set once more, on plain states. An instruction word is taken apart by shifts and
masks into bytes, its fields select what is done, and registers are reached by the bytes in the
fields: nothing but the masks keeps these below sixteen. Every check passes, and what comes out is
what the machine does.

* `PlainState.dispatch?` : what the fields of an instruction word select;
* `PlainState.perform?` : an instruction word executed, as if it had just been fetched;
* `Keypad.mask?`, `Keypad.isDown?` : the key that a byte names;
* `PlainState.agrees_dispatch?` : every word passes its checks and does what its instruction does;
* `PlainState.agrees_perform?` : so it does from every state within the bounds;
* `PlainState.forall_isSome_perform?_iff` : the checks need no other bound, and they need this one.
-/

namespace ChipEight

/-! ### Keys and functions of two registers -/

namespace Keypad

/-- The mask of the key that a byte names: a bit shifted to the left. -/
def mask? (key : Byte) : Option (BitVec 16) := shiftLeft? 1 (key &&& 0xF).toNat

/-- Whether the key that a byte names is down. -/
def isDown? (p : Keypad) (key : Byte) : Option Bool :=
  (mask? key).map fun mask => p.bits &&& mask != 0

theorem mask?_eq_some (key : Byte) : mask? key = some (mask (keyOf key)) := by
  have hkey : (key &&& 0xF).toNat = (keyOf key).toNat := by
    rw [keyOf, BitVec.toNat_setWidth]
    exact toNat_and_mask key 4 (by decide)
  rw [mask?, hkey, shiftLeft?_eq_some (BitVec.isLt (keyOf key))]
  rfl

theorem isDown?_eq_some (p : Keypad) (key : Byte) : p.isDown? key = some (p.isDown key) := by
  have hne : mask (keyOf key) ≠ 0 := by
    intro h
    have hbit := getLsbD_mask (keyOf key) (keyOf key)
    rw [h] at hbit
    simp at hbit
  have hmask : (p.bits &&& mask (keyOf key) != 0) = p.holds (keyOf key) := by
    rw [mask, BitVec.and_twoPow, ← mask, holds]
    cases p.bits.getLsbD (keyOf key).toNat with
    | false => rfl
    | true => exact bne_iff_ne.2 hne
  rw [isDown?, mask?_eq_some, Option.map_some, hmask, isDown]

end Keypad

namespace Arith

/-- The function that a byte selects. -/
def ofByte? : Byte → Option Arith
  | 0x0#8 => some copy
  | 0x1#8 => some or
  | 0x2#8 => some and
  | 0x3#8 => some xor
  | 0x4#8 => some add
  | 0x5#8 => some sub
  | 0x6#8 => some shiftRight
  | 0x7#8 => some subFrom
  | 0xE#8 => some shiftLeft
  | _ => none

/-- The result for two bytes; the shifts are checked. -/
def result? (a b : Byte) : Arith → Option Byte
  | shiftRight => shiftRight? a 1
  | shiftLeft => shiftLeft? a 1
  | f => some (f.result a b)

theorem ofByte?_setWidth (d : Digit) : ofByte? (d.setWidth 8) = ofDigit? d := by
  revert d
  decide

theorem result?_eq_some (f : Arith) (a b : Byte) : f.result? a b = some (f.result a b) := by
  cases f <;> rfl

end Arith

namespace PlainState

variable (s : PlainState)

/-! ### The instructions -/

/-- Skips the next instruction if `b` holds. -/
def skipIf (b : Bool) : Outcome PlainState := .done (if b then s.advance else s)

/-- Skips the next instruction if `p` holds of the byte in register `x`. -/
def skipByte? (p : Byte → Bool) (x : Byte) : Option (Outcome PlainState) := do
  let v ← s.register? x
  some (s.skipIf (p v))

/-- Skips the next instruction if `p` holds of the bytes in registers `x` and `y`. -/
def skipCompare? (p : Byte → Byte → Bool) (x y : Byte) : Option (Outcome PlainState) := do
  let a ← s.register? x
  let b ← s.register? y
  some (s.skipIf (p a b))

/-- Skips the next instruction, depending on whether the key that register `x` names is down. -/
def skipKey? (p : Bool → Bool) (x : Byte) : Option (Outcome PlainState) := do
  let key ← s.register? x
  let down ← s.keypad.isDown? key
  some (s.skipIf (p down))

/-- Adds `kk` to register `x`. -/
def addByte? (x kk : Byte) : Option (Outcome PlainState) := do
  let v ← s.register? x
  let s ← s.setRegister? x (v + kk)
  some (.done s)

/-- Puts a result into register `x` and then, if there is one, the flag into its register. -/
def setWithFlag? (x result : Byte) (flag? : Option Bool) : Option (Outcome PlainState) := do
  let s ← s.setRegister? x result
  match flag? with
  | some flag => (s.setRegister? 0xF (Byte.ofBool flag)).map .done
  | none => some (.done s)

/-- Applies a function to registers `x` and `y`. -/
def arith? (f : Arith) (x y : Byte) : Option (Outcome PlainState) := do
  let a ← s.register? x
  let b ← s.register? y
  let result ← f.result? a b
  s.setWithFlag? x result (f.flag? a b)

/-- Jumps to `nnn` plus register 0. -/
def jumpOffset? (nnn : Word) : Option (Outcome PlainState) := do
  let v ← s.register? 0
  let target ← add? (v.setWidth 16) nnn
  some (s.jump (target &&& 0x0FFF))

/-- Points the index register to the glyph of the low digit of register `x`. -/
def pointGlyph? (x : Byte) : Option (Outcome PlainState) := do
  let v ← s.register? x
  let index ← mul? ((v &&& 0xF).setWidth 16 : Word) 5
  some (.done { s with index := index })

/-- What the low byte selects if the leading digit is E. -/
def dispatchKey? (op : Word) (f : Fields) : Option (Outcome PlainState) :=
  match f.kk with
  | 0x9E#8 => s.skipKey? id f.x
  | 0xA1#8 => s.skipKey? not f.x
  | _ => some (.failed s (.unknownInstruction op s.site))

/-- What the low byte selects if the leading digit is F. -/
def dispatchTransfer? (op : Word) (f : Fields) : Option (Outcome PlainState) :=
  match f.kk with
  | 0x07#8 => (s.setRegister? f.x s.timers.delay).map .done
  | 0x0A#8 => some (.reported { s with mode := .waiting f.x } [.awaitingKey (f.x.setWidth 4)])
  | 0x15#8 => (s.register? f.x).map fun v => .done { s with timers := { s.timers with delay := v } }
  | 0x18#8 => (s.register? f.x).map fun v => .done { s with timers := { s.timers with sound := v } }
  | 0x1E#8 => (s.register? f.x).map fun v => .done { s with index := s.index + v.setWidth 16 }
  | 0x29#8 => s.pointGlyph? f.x
  | 0x33#8 => s.storeDecimal? f.x
  | 0x55#8 => s.storeRegisters? f.x
  | 0x65#8 => s.loadRegisters? f.x
  | _ => some (.failed s (.unknownInstruction op s.site))

/-- What the fields of an instruction word select. The word `op` stands in the report of one that
does not exist or is not implemented. -/
def dispatch? (op word : Word) (f : Fields) : Option (Outcome PlainState) :=
  match f.family with
  | 0x0#8 =>
    if word = 0x00E0 then some (.done { s with frame := .blank })
    else if word = 0x00EE then s.pop?
    else some (.failed s (.notImplemented op s.site))
  | 0x1#8 => some (s.jump f.nnn)
  | 0x2#8 => s.push?.map fun o => o.andThen fun s => s.jump f.nnn
  | 0x3#8 => s.skipByte? (· == f.kk) f.x
  | 0x4#8 => s.skipByte? (· != f.kk) f.x
  | 0x5#8 =>
    if f.n = 0 then s.skipCompare? (· == ·) f.x f.y
    else some (.failed s (.unknownInstruction op s.site))
  | 0x6#8 => (s.setRegister? f.x f.kk).map .done
  | 0x7#8 => s.addByte? f.x f.kk
  | 0x8#8 =>
    match Arith.ofByte? f.n with
    | some g => s.arith? g f.x f.y
    | none => some (.failed s (.unknownInstruction op s.site))
  | 0x9#8 =>
    if f.n = 0 then s.skipCompare? (· != ·) f.x f.y
    else some (.failed s (.unknownInstruction op s.site))
  | 0xA#8 => some (.done { s with index := f.nnn })
  | 0xB#8 => s.jumpOffset? f.nnn
  | 0xC#8 =>
    ({ s with random := s.random.advance }.setRegister? f.x (s.random.byte &&& f.kk)).map .done
  | 0xD#8 => s.draw? f.x f.y f.n
  | 0xE#8 => s.dispatchKey? op f
  | 0xF#8 => s.dispatchTransfer? op f
  | _ => some (.failed s (.unknownInstruction op s.site))

/-- Executes the instruction of `word` as if it had just been fetched; `op` stands for it in the
reports of faults. -/
def perform? (word op : Word) : Option (Outcome PlainState) := do
  let fields ← word.fields?
  s.advance.dispatch? op word fields

/-! ### The checks pass -/

variable {s} {limit : Nat} {op : Word}

theorem agrees_skipIf (h : s.Bounded limit) (b : Bool) :
    Agrees limit (some (s.skipIf b)) (.done (if b then s.view.advance else s.view)) := by
  cases b with
  | false => exact agrees_done h
  | true =>
    rw [skipIf, if_pos rfl, if_pos rfl, ← view_advance]
    exact agrees_done (s := s.advance) h

theorem agrees_skipByte? (h : s.Bounded limit) (p : Byte → Bool) (x : Digit) :
    Agrees limit (s.skipByte? p (x.setWidth 8))
      (.done (if p (s.registers.get x) then s.view.advance else s.view)) := by
  simp only [skipByte?, register?_digit, Option.bind_eq_bind, Option.bind_some]
  exact agrees_skipIf h _

theorem agrees_skipCompare? (h : s.Bounded limit) (p : Byte → Byte → Bool) (x y : Digit) :
    Agrees limit (s.skipCompare? p (x.setWidth 8) (y.setWidth 8))
      (.done (if p (s.registers.get x) (s.registers.get y) then s.view.advance else s.view)) := by
  simp only [skipCompare?, register?_digit, Option.bind_eq_bind, Option.bind_some]
  exact agrees_skipIf h _

theorem agrees_skipKey? (h : s.Bounded limit) (p : Bool → Bool) (x : Digit) :
    Agrees limit (s.skipKey? p (x.setWidth 8))
      (.done (if p (s.keypad.isDown (s.registers.get x)) then s.view.advance else s.view)) := by
  simp only [skipKey?, register?_digit, Keypad.isDown?_eq_some, Option.bind_eq_bind,
    Option.bind_some]
  exact agrees_skipIf h _

theorem agrees_map_register? (x : Digit) (g : Byte → Outcome PlainState)
    (h : (g (s.registers.get x)).state.Bounded limit) :
    Agrees limit ((s.register? (x.setWidth 8)).map g) ((g (s.registers.get x)).map view) := by
  rw [register?_digit]
  exact ⟨_, rfl, h, rfl⟩

theorem agrees_awaitKey (h : s.Bounded limit) (hlimit : 16 ≤ limit) (x : Digit) :
    Agrees limit
      (some (.reported { s with mode := .waiting (x.setWidth 8) }
        [.awaitingKey ((x.setWidth 8 : Byte).setWidth 4)]))
      (.reported { s.view with mode := .waiting x } [.awaitingKey x]) := by
  refine ⟨_, rfl, ⟨h.1, ?_⟩, ?_⟩
  · intro y hy
    obtain rfl : x.setWidth 8 = y := PlainMode.waiting.inj hy
    rw [toNat_setWidth_digit]
    exact Nat.lt_of_lt_of_le x.isLt hlimit
  · simp only [Outcome.map, Outcome.reported, view, PlainMode.view, setWidth_setWidth_digit]

theorem agrees_setRegister? (h : s.Bounded limit) (x : Digit) (v : Byte) :
    Agrees limit ((s.setRegister? (x.setWidth 8) v).map .done)
      (.done (s.view.setRegister x v)) := by
  rw [setRegister?_digit]
  exact ⟨_, rfl, h, rfl⟩

theorem agrees_addByte? (h : s.Bounded limit) (x : Digit) (kk : Byte) :
    Agrees limit (s.addByte? (x.setWidth 8) kk)
      (.done (s.view.setRegister x (s.registers.get x + kk))) := by
  simp only [addByte?, register?_digit, setRegister?_digit, Option.bind_eq_bind, Option.bind_some]
  exact ⟨_, rfl, h, rfl⟩

theorem agrees_arith? (h : s.Bounded limit) (f : Arith) (x y : Digit) :
    Agrees limit (s.arith? f (x.setWidth 8) (y.setWidth 8)) (.done (f.apply x y s.view)) := by
  have hflag : (0xF : Byte) = flagRegister.setWidth 8 := rfl
  simp only [arith?, register?_digit, Arith.result?_eq_some, setWithFlag?, setRegister?_digit,
    hflag, Option.bind_eq_bind, Option.bind_some]
  cases f <;> exact ⟨_, rfl, h, rfl⟩

theorem agrees_jumpOffset? (h : s.Bounded limit) (nnn : Address) :
    Agrees limit (s.jumpOffset? (nnn.setWidth 16))
      (s.view.jump ((nnn + (s.registers.get 0).setWidth 12).setWidth 16)) := by
  have hv := (s.registers.get 0).isLt
  have hnnn := nnn.isLt
  have hregister : s.register? 0 = some (s.registers.get 0) := s.register?_digit 0
  have hsum : add? ((s.registers.get 0).setWidth 16 : Word) (nnn.setWidth 16) =
      some ((s.registers.get 0).setWidth 16 + nnn.setWidth 16) := by
    refine add?_eq_some ?_
    rw [BitVec.toNat_setWidth_of_le (by decide), BitVec.toNat_setWidth_of_le (by decide)]
    change (s.registers.get 0).toNat + nnn.toNat < 65536
    omega
  have htarget : Word.address ((s.registers.get 0).setWidth 16 + nnn.setWidth 16) =
      nnn + (s.registers.get 0).setWidth 12 := by
    rw [Word.address_add, Word.address, Word.address, BitVec.setWidth_setWidth_of_le _ (by decide),
      BitVec.setWidth_setWidth_of_le _ (by decide), BitVec.setWidth_eq, BitVec.add_comm]
  simp only [jumpOffset?, hregister, hsum, Option.bind_eq_bind, Option.bind_some,
    ← Word.setWidth_address, htarget]
  exact agrees_jump h _

theorem agrees_pointGlyph? (h : s.Bounded limit) (x : Digit) :
    Agrees limit (s.pointGlyph? (x.setWidth 8))
      (.done { s.view with
        index := (glyphAddress ((s.registers.get x).setWidth 4)).setWidth 16 }) := by
  have hdigit : ((s.registers.get x &&& 0xF).setWidth 16 : Word).toNat =
      (s.registers.get x).toNat % 16 := by
    rw [BitVec.toNat_setWidth_of_le (by decide)]
    exact toNat_and_mask _ 4 (by decide)
  have hproduct : mul? ((s.registers.get x &&& 0xF).setWidth 16 : Word) 5 =
      some ((glyphAddress ((s.registers.get x).setWidth 4)).setWidth 16) := by
    rw [mul?_eq_some]
    · congr 1
      refine BitVec.eq_of_toNat_eq ?_
      have hlt : (s.registers.get x).toNat % 16 * 5 < 4096 := by omega
      rw [BitVec.toNat_mul, hdigit, BitVec.toNat_setWidth_of_le (by decide), glyphAddress,
        BitVec.toNat_ofNat, BitVec.toNat_setWidth]
      change (s.registers.get x).toNat % 16 * 5 % 65536 =
        (s.registers.get x).toNat % 16 * 5 % 4096
      rw [Nat.mod_eq_of_lt hlt, Nat.mod_eq_of_lt (Nat.lt_trans hlt (by decide))]
    · rw [hdigit]
      change (s.registers.get x).toNat % 16 * 5 < 65536
      omega
  simp only [pointGlyph?, register?_digit, hproduct, Option.bind_eq_bind, Option.bind_some]
  exact ⟨_, rfl, h, rfl⟩

theorem agrees_call (h : s.Bounded limit) (target : Word) :
    Agrees limit (s.push?.map fun o => o.andThen fun s => s.jump target)
      (s.view.push.andThen fun s => s.jump target) := by
  obtain ⟨o, ho, hsp, hview⟩ := agrees_push? h
  rw [ho, ← hview]
  obtain ⟨q, hq, hsp', hview'⟩ := agrees_jump hsp target
  obtain rfl := Option.some.inj hq
  cases hf : o.fault with
  | none =>
    have hplain : (o.andThen fun s => s.jump target) = (o.state.jump target).after o.log := by
      rw [Outcome.andThen, hf]
    have hmap : ((o.map view).andThen fun s => s.jump target) =
        (o.state.view.jump target).after o.log := by
      rw [Outcome.andThen, Outcome.fault_map, hf]
      rfl
    rw [Option.map_some, hplain, hmap, ← hview']
    exact ⟨_, rfl, hsp', rfl⟩
  | some f =>
    have hplain : (o.andThen fun s => s.jump target) = o := by
      rw [Outcome.andThen, hf]
    have hmap : ((o.map view).andThen fun s => s.jump target) = o.map view := by
      rw [Outcome.andThen, Outcome.fault_map, hf]
    rw [Option.map_some, hplain, hmap]
    exact ⟨_, rfl, hsp, rfl⟩

theorem agrees_dispatchKey? (h : s.Bounded limit) (w : Word) :
    Agrees limit (s.dispatchKey? op w.fields) ((Instruction.decodeKey w).execute op s.view) := by
  have hkk : w.fields.kk = w.kk := rfl
  rw [Instruction.decodeKey]
  split
  case h_1 hk =>
    rw [dispatchKey?, hkk, hk]
    exact agrees_skipKey? h id w.x
  case h_2 hk =>
    rw [dispatchKey?, hkk, hk]
    exact agrees_skipKey? h not w.x
  case h_3 h₁ h₂ =>
    rw [dispatchKey?, hkk]
    split
    · exact absurd ‹_› h₁
    · exact absurd ‹_› h₂
    · exact agrees_failed h _

theorem agrees_dispatchTransfer? (h : s.Bounded limit) (hlimit : 16 ≤ limit) (w : Word) :
    Agrees limit (s.dispatchTransfer? op w.fields)
      ((Instruction.decodeTransfer w).execute op s.view) := by
  have hkk : w.fields.kk = w.kk := rfl
  rw [Instruction.decodeTransfer]
  split
  case h_10 =>
    rw [dispatchTransfer?, hkk]
    split
    case h_10 => exact agrees_failed h _
    all_goals exact absurd ‹w.kk = _› (by assumption)
  all_goals
    rename_i hk
    rw [dispatchTransfer?, hkk, hk]
  · exact agrees_setRegister? h w.x _
  · exact agrees_awaitKey h hlimit w.x
  · exact agrees_map_register? w.x _ h
  · exact agrees_map_register? w.x _ h
  · exact agrees_map_register? w.x _ h
  · exact agrees_pointGlyph? h w.x
  · exact agrees_storeDecimal? h w.x
  · exact agrees_storeRegisters? h w.x
  · exact agrees_loadRegisters? h w.x

theorem agrees_dispatchControl (h : s.Bounded limit) (w : Word) :
    Agrees limit
      (if w = 0x00E0 then some (.done { s with frame := .blank })
        else if w = 0x00EE then s.pop?
        else some (.failed s (.notImplemented op s.site)))
      ((Instruction.decodeControl w).execute op s.view) := by
  rw [Instruction.decodeControl]
  by_cases hclear : w = 0x00E0
  · rw [if_pos hclear, if_pos hclear]
    exact ⟨_, rfl, h, rfl⟩
  · rw [if_neg hclear, if_neg hclear]
    by_cases hret : w = 0x00EE
    · rw [if_pos hret, if_pos hret]
      exact agrees_pop? h
    · rw [if_neg hret, if_neg hret]
      exact agrees_failed h _

/-- The skips on two registers ask for a last digit of zero. -/
theorem agrees_dispatchCompare (h : s.Bounded limit) (w : Word)
    {p : Byte → Byte → Bool} {c : Condition}
    (hc : c.holds s.view = p (s.registers.get w.x) (s.registers.get w.y)) :
    Agrees limit
      (if w.fields.n = 0 then s.skipCompare? p w.fields.x w.fields.y
        else some (.failed s (.unknownInstruction op s.site)))
      ((if w.n = 0 then .skip c else .unknown w : Instruction).execute op s.view) := by
  have hn : w.fields.n = 0 ↔ w.n = 0 := by
    have hbyte : ∀ d : Digit, (d.setWidth 8 : Byte) = 0 ↔ d = 0 := by decide
    exact hbyte w.n
  by_cases h₀ : w.n = 0
  · rw [if_pos (hn.2 h₀), if_pos h₀, Instruction.execute, hc]
    exact agrees_skipCompare? h p w.x w.y
  · rw [if_neg (mt hn.1 h₀), if_neg h₀]
    exact agrees_failed h _

theorem agrees_dispatchArith (h : s.Bounded limit) (w : Word) :
    Agrees limit
      (match Arith.ofByte? w.fields.n with
        | some g => s.arith? g w.fields.x w.fields.y
        | none => some (.failed s (.unknownInstruction op s.site)))
      ((match Arith.ofDigit? w.n with
        | some f => .arith f w.x w.y
        | none => .unknown w : Instruction).execute op s.view) := by
  have hn : Arith.ofByte? w.fields.n = Arith.ofDigit? w.n := Arith.ofByte?_setWidth w.n
  rw [hn]
  cases Arith.ofDigit? w.n with
  | some f => exact agrees_arith? h f w.x w.y
  | none => exact agrees_failed h _

theorem agrees_dispatch? (h : s.Bounded limit) (hlimit : 16 ≤ limit) (w : Word) :
    Agrees limit (s.dispatch? op w w.fields) ((Instruction.decode w).execute op s.view) := by
  have hfamily : w.fields.family = w.family.setWidth 8 := rfl
  rw [Instruction.decode]
  split
  case h_16 =>
    have hw : w.family = 0xF := by
      clear hfamily
      generalize w.family = d at *
      revert d
      decide
    rw [dispatch?, hfamily, hw]
    exact agrees_dispatchTransfer? h hlimit w
  all_goals
    rename_i hw
    rw [dispatch?, hfamily, hw]
  · exact agrees_dispatchControl h w
  · exact agrees_jump h _
  · exact agrees_call h _
  · exact agrees_skipByte? h (· == w.kk) w.x
  · exact agrees_skipByte? h (· != w.kk) w.x
  · exact agrees_dispatchCompare h w rfl
  · exact agrees_setRegister? h w.x _
  · exact agrees_addByte? h w.x w.kk
  · exact agrees_dispatchArith h w
  · exact agrees_dispatchCompare h w rfl
  · exact agrees_done (s := { s with index := w.fields.nnn }) h
  · exact agrees_jumpOffset? h w.nnn
  · exact agrees_setRegister? (s := { s with random := s.random.advance }) h w.x _
  · exact agrees_draw? h w.x w.y w.n
  · exact agrees_dispatchKey? h w

/-- Every instruction passes its checks, from every state within the bounds, and does what the
machine does. -/
theorem agrees_perform? (h : s.Bounded limit) (hlimit : 16 ≤ limit) (w op : Word) :
    Agrees limit (s.perform? w op) (s.view.perform w op) := by
  rw [perform?, Word.fields?_eq_some, State.perform, ← view_advance]
  exact agrees_dispatch? (s := s.advance) h hlimit w

theorem bounded_of_sp_le (h : s.sp.toNat ≤ stackSize) : s.Bounded 256 :=
  ⟨h, fun x _ => x.isLt⟩

/-- The bound on the stack pointer is all that the checks need, and it is needed. -/
theorem forall_isSome_perform?_iff :
    (∀ w op, (s.perform? w op).isSome = true) ↔ s.sp.toNat ≤ stackSize := by
  constructor
  · intro h
    have hret : s.perform? 0x00EE 0x00EE = s.advance.pop? := by
      rw [perform?, Word.fields?_eq_some]
      rfl
    have hpop := h 0x00EE 0x00EE
    rw [hret] at hpop
    exact (isSome_pop? (s := s.advance)).1 hpop
  · intro h w op
    obtain ⟨o, ho, -⟩ := agrees_perform? (bounded_of_sp_le h) (by decide) w op
    rw [ho]
    rfl

end PlainState

end ChipEight
