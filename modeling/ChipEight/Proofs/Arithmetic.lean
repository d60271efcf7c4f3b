import ChipEight.Instruction.Encode
import ChipEight.Proofs.Effects

/-!
# Arithmetic in whole numbers

Registers hold bytes, so sums, differences and shifts lose what does not fit. For five functions
of two registers the flag tells what has been lost: it is worth 256 in a sum and in a shift to the
left, 1 in a shift to the right, and in a difference it tells that nothing had to be borrowed. That
makes an equation between whole numbers, without any wrapping, and a byte and a bit that solve it
are all the result and the flag can be.

Both operands are read before anything is written and the flag is written last, so it does not
matter whether a register is used twice, except that the flag takes the place of the result if both
go to the same register. The other functions have no flag, and change the one register only.

* `Arith.Balances` : the equation of a function with a flag;
* `Arith.balances_unique`, `Arith.balances_result` : it has one solution at most, and the machine
  finds it;
* `State.ChangesOnly`, `State.PutsWithFlag` : what an instruction may change, and what it puts into
  two registers;
* `State.Solves`, `State.Yields`, `State.ArithmeticLaw` : the laws of the instructions;
* `State.arithmetic_exact` : the result.
-/

namespace ChipEight

namespace Arith

/-- The equation that ties the result and the flag of a function to its operands. -/
def Balances (a b res flag : Int) : Arith → Prop
  | add => 256 * flag + res = a + b
  | sub => res = a - b + 256 * (1 - flag)
  | subFrom => res = b - a + 256 * (1 - flag)
  | shiftRight => 2 * res + flag = a
  | shiftLeft => 256 * flag + res = 2 * a
  | copy | or | and | xor => False

variable {f : Arith} {a b : Byte} {flag : Bool}

/-- At most one byte and one bit solve the equation. -/
theorem balances_unique {m n : Int} {r r' : Byte} {g g' : Bool}
    (h : f.Balances m n r.toNat g.toNat) (h' : f.Balances m n r'.toNat g'.toNat) :
    r' = r ∧ g' = g := by
  have hr := r.isLt
  have hr' := r'.isLt
  have hsame : r'.toNat = r.toNat ∧ g' = g := by
    cases f with
    | copy | or | and | xor => exact h.elim
    | _ =>
      simp only [Balances] at h h'
      cases g <;> cases g' <;> simp at h h' ⊢ <;> omega
  exact ⟨BitVec.eq_of_toNat_eq hsame.1, hsame.2⟩

theorem toNat_sum (a b : Byte) :
    256 * (decide (wordCount 8 ≤ a.toNat + b.toNat)).toNat + (a + b).toNat =
      a.toNat + b.toNat := by
  have ha := a.isLt
  have hb := b.isLt
  have h : wordCount 8 = 256 := rfl
  rw [BitVec.toNat_add, h]
  by_cases hc : 256 ≤ a.toNat + b.toNat
  · simp [hc]
    omega
  · simp [hc]
    omega

/-- The flag of a difference is the absence of a borrow. -/
theorem toNat_difference (a b : Byte) :
    (a - b).toNat + b.toNat + 256 * (decide (b ≤ a)).toNat = a.toNat + 256 := by
  have ha := a.isLt
  have hb := b.isLt
  rw [BitVec.toNat_sub]
  by_cases hc : b ≤ a
  · have hle : b.toNat ≤ a.toNat := BitVec.le_def.1 hc
    simp [hc]
    omega
  · have hlt : a.toNat < b.toNat := Nat.not_le.1 (mt BitVec.le_def.2 hc)
    simp [hc]
    omega

theorem toNat_half (a : Byte) : 2 * (a >>> 1).toNat + (a.getLsbD 0).toNat = a.toNat := by
  have hbit : (a.getLsbD 0).toNat = a.toNat % 2 := by
    rw [BitVec.getLsbD, Nat.testBit_zero]
    rcases Nat.mod_two_eq_zero_or_one a.toNat with h | h <;> simp [h]
  rw [BitVec.toNat_ushiftRight, Nat.shiftRight_eq_div_pow, hbit]
  omega

theorem toNat_double (a : Byte) : 256 * (a.getMsbD 0).toNat + (a <<< 1).toNat = 2 * a.toNat := by
  have ha := a.isLt
  have hbit : a.getMsbD 0 = decide (128 ≤ a.toNat) := BitVec.msb_eq_decide a
  rw [BitVec.toNat_shiftLeft, Nat.shiftLeft_eq, hbit]
  by_cases hc : 128 ≤ a.toNat
  · simp [hc]
    omega
  · simp [hc]
    omega

theorem balances_result (h : f.flag? a b = some flag) :
    f.Balances a.toNat b.toNat (f.result a b).toNat flag.toNat := by
  cases f with
  | copy | or | and | xor => cases h
  | add =>
    obtain rfl := Option.some.inj h
    have := toNat_sum a b
    simp only [Balances, result]
    omega
  | sub =>
    obtain rfl := Option.some.inj h
    have := toNat_difference a b
    simp only [Balances, result]
    omega
  | subFrom =>
    obtain rfl := Option.some.inj h
    have := toNat_difference b a
    simp only [Balances, result]
    omega
  | shiftRight =>
    obtain rfl := Option.some.inj h
    have := toNat_half a
    simp only [Balances, result]
    omega
  | shiftLeft =>
    obtain rfl := Option.some.inj h
    have := toNat_double a
    simp only [Balances, result]
    omega

theorem ofDigit?_toDigit (f : Arith) : ofDigit? f.toDigit = some f := by
  cases f <;> rfl

end Arith

namespace State

/-- The outcome of an instruction that succeeds without a report and goes on to the next one, with
no registers changed but the given ones. -/
structure ChangesOnly (s : State) (changed : List Digit) (o : Outcome State) : Prop where
  /-- There is neither a fault nor a report. -/
  done : o = .done o.state
  /-- The other registers are as they were. -/
  others : ∀ r ∉ changed, o.state.registers.get r = s.registers.get r
  /-- So is all else but the program counter. -/
  rest : o.state = { s.advance with registers := o.state.registers }

/-- The outcome of an instruction that puts `res` into register `x` and then `flag` into the flag
register. -/
structure PutsWithFlag (s : State) (x : Digit) (res : Byte) (flag : Bool) (o : Outcome State) :
    Prop extends s.ChangesOnly [x, flagRegister] o where
  /-- The flag register holds the flag, also if it is register `x`. -/
  flag_eq : (o.state.registers.get flagRegister).toNat = flag.toNat
  /-- Otherwise register `x` holds the result. -/
  result_eq : x ≠ flagRegister → o.state.registers.get x = res

/-- An equation between a result and a flag has one solution, and executing the word `w` puts it
into register `x` and the flag register. -/
def Solves (s : State) (w op : Word) (x : Digit) (equation : Int → Int → Prop) : Prop :=
  ∃ (res : Byte) (flag : Bool), equation res.toNat flag.toNat ∧
    (∀ (r : Byte) (g : Bool), equation r.toNat g.toNat → r = res ∧ g = flag) ∧
    s.PutsWithFlag x res flag (s.perform w op)

/-- Executing the word `w` changes register `x` only, and a law tells what it holds then. -/
def Yields (s : State) (w op : Word) (x : Digit) (law : Byte → Prop) : Prop :=
  s.ChangesOnly [x] (s.perform w op) ∧ law ((s.perform w op).state.registers.get x)

/-- What the functions of registers `x` and `y` put into registers, in whole numbers where there is
a flag. -/
structure ArithmeticLaw (s : State) (x y : Digit) (op : Word) : Prop where
  /-- A sum is what fits a byte and 256 for the carry. -/
  sum : s.Solves (.ofDigits 0x8 x y 0x4) op x fun res flag =>
    256 * flag + res = (s.registers.get x).toNat + (s.registers.get y).toNat
  /-- A difference has 256 added unless the flag tells that it needs not. -/
  difference : s.Solves (.ofDigits 0x8 x y 0x5) op x fun res flag =>
    res = (s.registers.get x).toNat - (s.registers.get y).toNat + 256 * (1 - flag)
  /-- The same with the operands exchanged. -/
  differenceFrom : s.Solves (.ofDigits 0x8 x y 0x7) op x fun res flag =>
    res = (s.registers.get y).toNat - (s.registers.get x).toNat + 256 * (1 - flag)
  /-- A byte is twice its half and 1 for the bit that falls off. -/
  half : s.Solves (.ofDigits 0x8 x y 0x6) op x fun res flag =>
    2 * res + flag = (s.registers.get x).toNat
  /-- Twice a byte is what fits a byte and 256 for the bit that falls off. -/
  double : s.Solves (.ofDigits 0x8 x y 0xE) op x fun res flag =>
    256 * flag + res = 2 * (s.registers.get x).toNat
  /-- Half and double do not depend on register `y`. -/
  ignores_y : ∀ d ∈ [(0x6 : Digit), 0xE], ∀ z,
    s.perform (.ofDigits 0x8 x z d) op = s.perform (.ofDigits 0x8 x y d) op
  /-- A sum with a constant wraps at 256. -/
  sumByte : ∀ kk, s.Yields (.ofByte 0x7 x kk) op x fun v =>
    v.toNat = ((s.registers.get x).toNat + kk.toNat) % 256
  /-- A byte is copied. -/
  copy : s.Yields (.ofDigits 0x8 x y 0x0) op x fun v => v = s.registers.get y
  /-- A bit is set if one of the two is. -/
  or : s.Yields (.ofDigits 0x8 x y 0x1) op x fun v =>
    ∀ i, v.getLsbD i = ((s.registers.get x).getLsbD i || (s.registers.get y).getLsbD i)
  /-- A bit is set if both are. -/
  and : s.Yields (.ofDigits 0x8 x y 0x2) op x fun v =>
    ∀ i, v.getLsbD i = ((s.registers.get x).getLsbD i && (s.registers.get y).getLsbD i)
  /-- A bit is set if one of the two is and the other one is not. -/
  xor : s.Yields (.ofDigits 0x8 x y 0x3) op x fun v =>
    ∀ i, v.getLsbD i = ((s.registers.get x).getLsbD i ^^ (s.registers.get y).getLsbD i)

variable {s : State} {x y : Digit} {op : Word} {f : Arith}

theorem perform_arith (s : State) (f : Arith) (x y : Digit) (op : Word) :
    s.perform (Word.ofDigits 0x8 x y f.toDigit) op = .done (f.apply x y s.advance) := by
  have hd : Instruction.decode (Word.ofDigits 0x8 x y f.toDigit) = .arith f x y := by
    simp [Instruction.decode, Arith.ofDigit?_toDigit]
  rw [perform, hd]
  rfl

theorem perform_addByte (s : State) (x : Digit) (kk : Byte) (op : Word) :
    s.perform (Word.ofByte 0x7 x kk) op =
      .done (s.advance.setRegister x (s.registers.get x + kk)) := by
  have hd : Instruction.decode (Word.ofByte 0x7 x kk) = .addByte x kk := by
    simp [Instruction.decode]
  rw [perform, hd]
  rfl

theorem yields_of_perform {w : Word} {v : Byte} {law : Byte → Prop}
    (hw : s.perform w op = .done (s.advance.setRegister x v)) (h : law v) :
    s.Yields w op x law := by
  rw [Yields, hw]
  refine ⟨⟨rfl, ?_, rfl⟩, ?_⟩
  · intro r hr
    exact Bank.get_set_of_ne _ _ (Ne.symm (List.ne_of_not_mem_cons hr))
  · change law ((s.registers.set x v).get x)
    rwa [Bank.get_set_self]

/-- The flag is written after the result. -/
theorem putsWithFlag (s : State) (x : Digit) (res : Byte) (flag : Bool) :
    s.PutsWithFlag x res flag (.done ((s.advance.setRegister x res).setFlag flag)) where
  done := rfl
  others r hr := by
    have hx : x ≠ r := Ne.symm (List.ne_of_not_mem_cons hr)
    have hf : flagRegister ≠ r :=
      Ne.symm (List.ne_of_not_mem_cons (List.not_mem_of_not_mem_cons hr))
    exact (Bank.get_set_of_ne _ _ hf).trans (Bank.get_set_of_ne _ _ hx)
  rest := rfl
  flag_eq := by
    change (((_ : Registers).set flagRegister _).get flagRegister).toNat = _
    rw [Bank.get_set_self]
    cases flag <;> rfl
  result_eq hx := (Bank.get_set_of_ne _ _ (Ne.symm hx)).trans (Bank.get_set_self ..)

theorem solves_arith {flag : Bool}
    (h : f.flag? (s.registers.get x) (s.registers.get y) = some flag) :
    s.Solves (Word.ofDigits 0x8 x y f.toDigit) op x
      (f.Balances (s.registers.get x).toNat (s.registers.get y).toNat) := by
  have hbalances := Arith.balances_result h
  refine ⟨_, flag, hbalances, fun r g hr => Arith.balances_unique hbalances hr, ?_⟩
  have happly : f.apply x y s.advance =
      (s.advance.setRegister x (f.result (s.registers.get x) (s.registers.get y))).setFlag
        flag := by
    have h' : f.flag? (s.advance.registers.get x) (s.advance.registers.get y) = some flag := h
    simp only [Arith.apply, h']
    rfl
  rw [perform_arith, happly]
  exact putsWithFlag s x _ flag

theorem yields_arith {law : Byte → Prop}
    (h : f.flag? (s.registers.get x) (s.registers.get y) = none)
    (hlaw : law (f.result (s.registers.get x) (s.registers.get y))) :
    s.Yields (Word.ofDigits 0x8 x y f.toDigit) op x law := by
  refine yields_of_perform ?_ hlaw
  have h' : f.flag? (s.advance.registers.get x) (s.advance.registers.get y) = none := h
  rw [perform_arith]
  simp only [Arith.apply, h']
  rfl

/-- **Arithmetic in whole numbers.** For each of the five functions with a flag there is one byte
and one bit that solve an equation between them and the two operands, and the instruction puts the
byte into register `x` and then the bit into the flag register. The sum with a constant wraps, the
other functions copy a byte or work bit by bit, and these change register `x` only. Any of the
registers may be the same, and nothing else changes but that the next instruction comes after this
one. -/
theorem arithmetic_exact (s : State) (x y : Digit) (op : Word) : s.ArithmeticLaw x y op where
  sum := solves_arith (f := .add) rfl
  difference := solves_arith (f := .sub) rfl
  differenceFrom := solves_arith (f := .subFrom) rfl
  half := solves_arith (f := .shiftRight) rfl
  double := solves_arith (f := .shiftLeft) rfl
  ignores_y := by
    intro d hd z
    simp only [List.mem_cons, List.not_mem_nil, or_false] at hd
    rcases hd with rfl | rfl
    · exact (perform_arith s .shiftRight x z op).trans (perform_arith s .shiftRight x y op).symm
    · exact (perform_arith s .shiftLeft x z op).trans (perform_arith s .shiftLeft x y op).symm
  sumByte kk := yields_of_perform (perform_addByte s x kk op) (BitVec.toNat_add _ kk)
  copy := yields_arith (f := .copy) rfl rfl
  or := yields_arith (f := .or) rfl fun i => BitVec.getLsbD_or
  and := yields_arith (f := .and) rfl fun i => BitVec.getLsbD_and
  xor := yields_arith (f := .xor) rfl fun i => BitVec.getLsbD_xor

end State

end ChipEight
