import ChipEight.Proofs.Checks.Execution
import ChipEight.Proofs.Rounds

/-!
# The checks of a machine

The operations of the machine on plain states: loading copies into a part of memory that has to
exist, a key is found by counting zeros and goes to a register named by a byte, and a timer counts
down by a difference that must not fall below zero. A new machine has no slot in use and waits for
no key. Every operation, whether it fails or not, keeps the stack pointer at sixteen at most and the
register of a key wait below sixteen, and within these bounds no check of any operation fails. So
the machine in plain numbers goes through every history of calls, and stands for the machine that
the history leaves.

* `PlainMachine`, `PlainMachine.perform?`, `PlainMachine.after?` : the machine with all its checks;
* `Memory.copy?`, `Keypad.newKey?`, `Timers.tick?` : what it has to check apart from instructions;
* `PlainMachine.agrees_perform?` : within the bounds every operation passes its checks;
* `PlainMachine.exists_after?` : so does every history of a new machine;
* `PlainMachine.passes_checks` : the result.
-/

namespace ChipEight

/-! ### Copying, finding a key, counting down -/

namespace Memory

variable (m : Memory)

/-- Memory with the bytes from `start` up to `stop` replaced by as many others. -/
def copy? (start stop : Nat) (bytes : List Byte) : Option Memory :=
  if start ≤ stop ∧ stop ≤ memorySize ∧ stop - start = bytes.length then
    some (Bank.ofFn fun a =>
      if start ≤ a.toNat ∧ a.toNat < stop then bytes.getD (a.toNat - start) 0 else m.get a)
  else none

theorem copy?_eq_some {rom : List Byte} (h : ¬ maxRomSize < rom.length) :
    m.copy? 0x200 (0x200 + rom.length) rom = some (m.load rom) := by
  have hlen : 0x200 + rom.length ≤ 0x1000 := by
    have hmax : rom.length ≤ 3584 := Nat.not_lt.1 h
    omega
  have hcheck : 0x200 ≤ 0x200 + rom.length ∧ 0x200 + rom.length ≤ memorySize ∧
      0x200 + rom.length - 0x200 = rom.length :=
    ⟨Nat.le_add_right .., hlen, Nat.add_sub_cancel_left ..⟩
  have hstart : programStart.toNat = 0x200 := rfl
  rw [copy?, if_pos hcheck]
  refine congrArg some (Bank.ext fun a => ?_)
  have hle : programStart ≤ a ↔ 0x200 ≤ a.toNat := BitVec.le_def
  rw [Bank.get_ofFn, get_load, hstart]
  by_cases ha : 0x200 ≤ a.toNat
  · rw [if_pos (hle.2 ha), List.getD_eq_getElem?_getD, List.getD_eq_getElem?_getD]
    by_cases hstop : a.toNat < 0x200 + rom.length
    · have hi : a.toNat - 0x200 < rom.length := by omega
      rw [if_pos ⟨ha, hstop⟩, List.getElem?_eq_getElem hi]
      rfl
    · rw [if_neg fun hc => hstop hc.2, List.getElem?_eq_none (by omega)]
      rfl
  · rw [if_neg (mt hle.1 ha), if_neg fun hc => ha hc.1]

end Memory

namespace Keypad

variable {p q : Keypad}

/-- The least key that is down now and was up in `q`: the number of zeros below its bit. -/
def newKey? (p q : Keypad) : Option Byte :=
  let fresh := p.bits &&& ~~~q.bits
  if fresh = 0 then none else some (fresh.ctz.setWidth 8)

/-- The keypad after a change; the key is a bit shifted to the left. -/
def edit? (p : Keypad) : KeyEdit → Option Keypad
  | .set q => some q
  | .press key => (mask? key).map fun mask => ⟨p.bits ||| mask⟩
  | .release key => (mask? key).map fun mask => ⟨p.bits &&& ~~~mask⟩

theorem edit?_eq_some (p : Keypad) (edit : KeyEdit) : p.edit? edit = some (edit.apply p) := by
  cases edit with
  | set q => rfl
  | press key => rw [edit?, mask?_eq_some]; rfl
  | release key => rw [edit?, mask?_eq_some]; rfl

theorem newKey?_eq : p.newKey? q = (p.freshKey? q).map fun k => k.setWidth 8 := by
  change (if p.freshBits q = 0 then none else some ((p.freshBits q).ctz.setWidth 8)) = _
  by_cases h : p.freshBits q = 0
  · rw [if_pos h, freshKey?_eq_none.2 h]
    rfl
  · have hlt : (p.freshBits q).ctz.toNat < 16 :=
      BitVec.lt_def.1 (BitVec.ctz_lt_iff_ne_zero.2 h)
    have hdigit : (BitVec.ofNat 4 (p.freshBits q).ctz.toNat).toNat = (p.freshBits q).ctz.toNat :=
      Nat.mod_eq_of_lt hlt
    have hkey : p.freshKey? q = some (BitVec.ofNat 4 (p.freshBits q).ctz.toNat) := by
      refine find?_allWords_eq_some.2 ⟨?_, fun k hk => ?_⟩
      · rw [← getLsbD_freshBits, hdigit]
        exact BitVec.getLsbD_true_ctz_of_ne_zero h
      · rw [← getLsbD_freshBits] at hk
        rw [BitVec.le_def, hdigit]
        refine Nat.le_of_not_lt fun hlower => ?_
        rw [BitVec.getLsbD_false_of_lt_ctz hlower] at hk
        cases hk
    rw [if_neg h, hkey, Option.map_some]
    congr 1
    refine BitVec.eq_of_toNat_eq ?_
    rw [BitVec.toNat_setWidth, PlainState.toNat_setWidth_digit, hdigit]
    exact Nat.mod_eq_of_lt (Nat.lt_trans hlt (by decide))

end Keypad

/-- A tick of the timers; the sound timer counts down by a difference that has to exist. -/
def Timers.tick? (t : Timers) : Option Timers :=
  if t.sound = 0 then some ⟨countDown t.delay, 0⟩
  else if t.sound = 1 then some ⟨countDown t.delay, 0⟩
  else (sub? t.sound 1).map fun sound => ⟨countDown t.delay, sound⟩

theorem Timers.tick?_eq_some (t : Timers) : t.tick? = some t.tick := by
  rw [tick?, tick]
  by_cases h₀ : t.sound = 0
  · rw [if_pos h₀, h₀]
    rfl
  · by_cases h₁ : t.sound = 1
    · rw [if_neg h₀, if_pos h₁, h₁]
      rfl
    · obtain ⟨hsub, hsound⟩ := sub?_one h₀
      have hdown : t.sound - 1 = countDown t.sound := by
        refine BitVec.eq_of_toNat_eq ?_
        rw [toNat_countDown, hsound]
      rw [if_neg h₀, if_neg h₁, hsub, hdown]
      rfl

/-! ### The operations -/

/-- A plain state, and what is remembered from the last check of a key wait. -/
structure PlainMachine where
  /-- The state. -/
  state : PlainState
  /-- The keypad at the last check. -/
  checked : Keypad

namespace PlainMachine

/-- A new machine with the given random numbers. -/
def new (random : RandomSource) : PlainMachine := ⟨.initial random, .empty⟩

variable (m : PlainMachine)

/-- The machine that a machine in plain numbers stands for. -/
def view : Machine := ⟨m.state.view, m.checked⟩

/-- Copies a program into memory, unless it is too long. -/
def load? (rom : List Byte) : Option (Outcome PlainMachine) :=
  if maxRomSize < rom.length then some (.failed m (.romTooLarge rom.length))
  else do
    let memory ← m.state.memory.copy? 0x200 (0x200 + rom.length) rom
    some (.reported { m with state := { m.state with memory := memory } }
      [.loadedRom rom.length])

/-- Executes one instruction, unless the processor waits for a key. -/
def step? : Option (Outcome PlainMachine) :=
  match m.state.mode with
  | .running => do
    let op ← m.state.fetch?
    let o ← m.state.perform? op op
    let trace : Event := .executing m.state.pc op m.state.registers m.state.index
    some ((o.after [trace]).map fun s => { m with state := s })
  | .waiting _ => some (.done m)

/-- Ends a key wait if a key has gone down since the last check. -/
def check? : Option (Outcome PlainMachine) :=
  match m.state.mode, m.state.keypad.newKey? m.checked with
  | .waiting x, some key => do
    let s ← m.state.setRegister? x key
    some (.reported { state := { s with mode := .running }, checked := m.state.keypad }
      [.keyPressed (key.setWidth 4) (x.setWidth 4)])
  | _, _ => some (.done { m with checked := m.state.keypad })

/-- The outcome of an operation. -/
def perform? : Operation → Option (Outcome PlainMachine)
  | .load rom => m.load? rom
  | .loadFrom reads =>
    match ReadEvent.collect reads with
    | .ok rom => m.load? rom
    | .error reason => some (.failed m (.unreadable reason))
  | .step => m.step?
  | .key edit =>
    (m.state.keypad.edit? edit).map fun p =>
      .done { m with state := { m.state with keypad := p } }
  | .check => m.check?
  | .tick =>
    m.state.timers.tick?.map fun t => .done { m with state := { m.state with timers := t } }

/-- The machine after a list of operations, each of which has to pass its checks. -/
def after? (ops : List Operation) : Option PlainMachine :=
  ops.foldlM (fun m op => (m.perform? op).map Outcome.state) m

/-! ### The checks pass -/

/-- No more slots are in use than there are, and a key wait is for a register that there is. -/
def Bounded : Prop := m.state.Bounded 16

/-- The checks pass, the bounds are kept, and the outcome is the expected one. -/
def Agrees (p : Option (Outcome PlainMachine)) (o : Outcome Machine) : Prop :=
  ∃ q, p = some q ∧ q.state.Bounded ∧ q.map view = o

variable {m}

theorem bounded_new (random : RandomSource) : (new random).Bounded :=
  ⟨Nat.zero_le _, fun _ h => by cases h⟩

theorem agrees_withMemory (h : m.Bounded) (memory : Memory) (log : List Event) :
    Agrees (some (.reported { m with state := { m.state with memory := memory } } log))
      (.reported { m.view with state := { m.view.state with memory := memory } } log) :=
  ⟨_, rfl, h, rfl⟩

theorem agrees_load? (h : m.Bounded) (rom : List Byte) :
    Agrees (m.load? rom) (m.view.load rom) := by
  by_cases hrom : maxRomSize < rom.length
  · rw [load?, Machine.load, if_pos hrom, if_pos hrom]
    exact ⟨_, rfl, h, rfl⟩
  · rw [load?, Machine.load, if_neg hrom, if_neg hrom, Memory.copy?_eq_some _ hrom]
    exact agrees_withMemory h _ _

theorem mode_view_of_running (hm : m.state.mode = .running) : m.view.state.mode = .running := by
  change m.state.mode.view = .running
  rw [hm]
  rfl

theorem mode_view_of_waiting {x : Byte} (hm : m.state.mode = .waiting x) :
    m.view.state.mode = .waiting (x.setWidth 4) := by
  change m.state.mode.view = .waiting (x.setWidth 4)
  rw [hm]
  rfl

theorem agrees_step? (h : m.Bounded) : Agrees m.step? m.view.step := by
  cases hm : m.state.mode with
  | running =>
    obtain ⟨o, ho, hbounded, hview⟩ := PlainState.agrees_perform? h (Nat.le_refl 16)
      m.state.view.fetch m.state.view.fetch
    rw [step?, hm, PlainState.fetch?_eq_some, Machine.step,
      State.step_of_running (mode_view_of_running hm)]
    simp only [Option.bind_eq_bind, Option.bind_some, ho]
    refine ⟨_, rfl, hbounded, ?_⟩
    change _ = ((m.state.view.perform m.state.view.fetch m.state.view.fetch).after
      [m.state.view.trace]).map fun s => { m.view with state := s }
    rw [← hview]
    rfl
  | waiting x =>
    rw [step?, hm, Machine.step_of_waiting (mode_view_of_waiting hm)]
    exact ⟨_, rfl, h, rfl⟩

theorem agrees_check? (h : m.Bounded) : Agrees m.check? m.view.check := by
  cases hm : m.state.mode with
  | running =>
    rw [check?, Machine.check, hm, mode_view_of_running hm]
    exact ⟨_, rfl, h, rfl⟩
  | waiting x =>
    have hmode := mode_view_of_waiting hm
    have hnew : m.state.keypad.newKey? m.checked = _ := Keypad.newKey?_eq
    cases hk : m.state.keypad.freshKey? m.checked with
    | none =>
      have hview : m.view.state.keypad.freshKey? m.view.checked = none := hk
      rw [check?, Machine.check, hm, hmode, hnew, hk, hview]
      exact ⟨_, rfl, h, rfl⟩
    | some k =>
      have hview : m.view.state.keypad.freshKey? m.view.checked = some k := hk
      -- the wait is for a register that there is, so the byte that names it is made of a digit
      have hset : m.state.setRegister? x (k.setWidth 8) =
          some { m.state with
            registers := m.state.registers.set (x.setWidth 4) (k.setWidth 8) } := by
        rw [← PlainState.setRegister?_digit, PlainState.setWidth_digit_of_lt (h.2 x hm)]
      rw [check?, Machine.check, hm, hmode, hnew, hk, hview]
      simp only [Option.map_some, hset, Option.bind_eq_bind, Option.bind_some,
        PlainState.setWidth_setWidth_digit]
      exact ⟨_, rfl, ⟨h.1, fun y hy => by cases hy⟩, rfl⟩

theorem agrees_perform? (h : m.Bounded) (op : Operation) :
    Agrees (m.perform? op) (m.view.perform op) := by
  cases op with
  | load rom => exact agrees_load? h rom
  | loadFrom reads =>
    rw [perform?, Machine.perform, Machine.loadFrom]
    cases ReadEvent.collect reads with
    | ok rom => exact agrees_load? h rom
    | error reason => exact ⟨_, rfl, h, rfl⟩
  | step => exact agrees_step? h
  | key edit =>
    rw [perform?, Keypad.edit?_eq_some]
    exact ⟨_, rfl, h, rfl⟩
  | check => exact agrees_check? h
  | tick =>
    rw [perform?, Timers.tick?_eq_some]
    exact ⟨_, rfl, h, rfl⟩

/-- Every list of operations passes its checks and leaves the machine that it should. -/
theorem exists_after? (h : m.Bounded) (ops : List Operation) :
    ∃ q, m.after? ops = some q ∧ q.Bounded ∧ q.view = m.view.after ops := by
  induction ops generalizing m with
  | nil => exact ⟨m, rfl, h, rfl⟩
  | cons op ops ih =>
    obtain ⟨o, ho, hbounded, hview⟩ := agrees_perform? h op
    obtain ⟨q, hq, hq', hafter⟩ := ih hbounded
    refine ⟨q, ?_, hq', ?_⟩
    · rw [after?, List.foldlM_cons, ho]
      exact hq
    · rw [hafter, Machine.after_cons, ← hview]
      rfl

/-- No check of the machine fails, whatever is asked of it next. A key wait is for a register that
there is, a fresh key is one that there is, and a program that is loaded ends within memory. -/
structure Safe (m : PlainMachine) : Prop where
  sp_le : m.state.sp.toNat ≤ 16
  register_lt : ∀ x, m.state.mode = .waiting x → x.toNat < 16
  key_le : ∀ key, m.state.keypad.newKey? m.checked = some key → key.toNat ≤ 15
  rom_le : ∀ rom, (m.view.load rom).fault = none → 0x200 + rom.length ≤ 0x1000
  performs : ∀ op, ∃ o, m.perform? op = some o ∧ o.map view = m.view.perform op

theorem Bounded.safe (h : m.Bounded) : m.Safe where
  sp_le := h.1
  register_lt := h.2
  key_le key hkey := by
    rw [Keypad.newKey?_eq, Option.map_eq_some_iff] at hkey
    obtain ⟨k, -, rfl⟩ := hkey
    rw [PlainState.toNat_setWidth_digit]
    exact Nat.le_of_lt_succ k.isLt
  rom_le rom hload := by
    have hrom := Machine.fault_load_eq_none_iff.1 hload
    omega
  performs op := by
    obtain ⟨o, ho, -, hview⟩ := agrees_perform? h op
    exact ⟨o, ho, hview⟩

/-- **No check ever fails.** An instruction passes its checks from every state in which no more
slots of the call stack are in use than there are, whatever else the state holds, and leaves such
a state, the one that the machine leaves. A new machine passes the checks of every history of calls,
failing instructions included, and so it does with whatever comes next. -/
theorem passes_checks (random : RandomSource) (calls : List Call) {s : PlainState}
    (h : s.sp.toNat ≤ 16) (w op : Word) :
    (∃ o, s.perform? w op = some o ∧ o.state.sp.toNat ≤ 16 ∧
        o.map PlainState.view = s.view.perform w op) ∧
      ∃ m, (new random).after? ((Machine.new random).history calls) = some m ∧ m.Safe ∧
        m.view = (Machine.new random).afterCalls calls := by
  constructor
  · obtain ⟨o, ho, hbounded, hview⟩ :=
      PlainState.agrees_perform? (PlainState.bounded_of_sp_le h) (by decide) w op
    exact ⟨o, ho, hbounded.1, hview⟩
  · obtain ⟨m, hm, hbounded, hview⟩ :=
      exists_after? (bounded_new random) ((Machine.new random).history calls)
    refine ⟨m, hm, hbounded.safe, ?_⟩
    rw [hview, Machine.afterCalls_eq_after]
    rfl

/-- A call with a full stack, from a state whose other parts are out of every range. -/
theorem passes_checks_of_full_stack :
    let s : PlainState :=
      { PlainState.initial (.ofList []) with
        index := 0xFFFF, pc := 0xFFFF, sp := 16, mode := .waiting 0xFF }
    s.sp.toNat ≤ 16 ∧
      (∃ o, s.perform? 0x2FFF 0x2FFF = some o ∧ o.state.sp.toNat ≤ 16 ∧
        o.map PlainState.view = s.view.perform 0x2FFF 0x2FFF) ∧
      ∃ m, (new (.ofList [])).after? ((Machine.new (.ofList [])).history [.single .step]) = some m ∧
        m.Safe ∧ m.view = (Machine.new (.ofList [])).afterCalls [.single .step] :=
  ⟨by decide, passes_checks (.ofList []) [.single .step] (by decide) 0x2FFF 0x2FFF⟩

end PlainMachine

end ChipEight
