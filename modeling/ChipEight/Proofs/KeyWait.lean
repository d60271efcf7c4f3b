import ChipEight.Proofs.Effects
import ChipEight.Proofs.Rounds
import Mathlib.Order.Bounds.Defs

/-!
# Key waits

A check of a key wait compares the keypad with that at the check before. What it remembers of the
past is one keypad, which no other operation touches, so a history tells what it will find: the
keys that are down now and were up at the last check, the *fresh* keys.

* `Machine.lastLook`, `Machine.freshAfter` : the keypad at the last check of a history, and the
  keys that are fresh after it;
* `Machine.checked_after` : what the machine remembers is the keypad at the last check;
* `Machine.Unanswered` : no check of a wait finds a fresh key;
* `Machine.after_unanswered` : while a wait is unanswered, only memory, timers and keypad change,
  and memory only by loading programs;
* `Machine.KeyWaitLaw`, `Machine.keyWaitLaw_of_calls` : the law of key waits, and that it holds.
-/

namespace ChipEight

namespace Keypad

variable {p q : Keypad} {k : Digit}

/-- The fresh key that is found is the least one. -/
theorem freshKey?_eq_some :
    p.freshKey? q = some k ↔ IsLeast {j | (p.freshBits q).getLsbD j = true} k.toNat := by
  rw [freshKey?, find?_allWords_eq_some, ← getLsbD_freshBits]
  refine and_congr Iff.rfl ⟨fun h j hj => ?_, fun h b hb => ?_⟩
  · have hlt : j < 16 := BitVec.lt_of_getLsbD hj
    have hj' : (BitVec.ofNat 4 j).toNat = j := Nat.mod_eq_of_lt hlt
    have hb := getLsbD_freshBits (p := p) (q := q) (BitVec.ofNat 4 j)
    rw [hj', hj] at hb
    have := BitVec.le_def.1 (h _ hb.symm)
    omega
  · have hb' : (p.freshBits q).getLsbD b.toNat = true := by rw [getLsbD_freshBits, hb]
    exact BitVec.le_def.2 (h hb')

theorem fresh_of_freshKey? (h : p.freshKey? q = some k) :
    p.holds k = true ∧ q.holds k = false := by
  have hk : (p.freshBits q).getLsbD k.toNat = true := (freshKey?_eq_some.1 h).1
  rw [getLsbD_freshBits] at hk
  simpa using hk

end Keypad

/-- Whether a change of the keypad makes key `k` go down. -/
def KeyEdit.putsDown (k : Digit) : KeyEdit → Bool
  | set q => q.holds k
  | press key => k = Keypad.keyOf key
  | release _ => false

theorem KeyEdit.holds_apply {edit : KeyEdit} {p : Keypad} {k : Digit}
    (hp : p.holds k = false) (he : edit.putsDown k = false) : (edit.apply p).holds k = false := by
  cases edit with
  | set q => exact he
  | press key =>
    rw [putsDown] at he
    rw [apply, Keypad.holds_press, he, hp]
    rfl
  | release key => rw [apply, Keypad.holds_release, hp, Bool.and_false]

theorem Instruction.decode_awaitKey {w : Word} (hf : w.family = 0xF) (hk : w.kk = 0x0A) :
    decode w = .awaitKey w.x := by
  rw [decode_of_transfer hf, decodeTransfer, hk]
  rfl

namespace Machine

/-- The keypad at the last check among the operations; `p` if there is none. -/
def lastLook : Machine → Keypad → List Operation → Keypad
  | _, p, [] => p
  | m, p, op :: ops =>
    (m.perform op).state.lastLook (if op = .check then m.state.keypad else p) ops

variable (m : Machine)

/-- The keys that are down after the operations and were up at the last check among them; all keys
were up before the first one. -/
def freshAfter (ops : List Operation) : BitVec 16 :=
  (m.after ops).state.keypad.freshBits (m.lastLook .empty ops)

/-- No check among the operations `wait`, which come after `ops`, finds a fresh key. -/
def Unanswered (ops wait : List Operation) : Prop :=
  ∀ first rest, wait = first ++ .check :: rest → m.freshAfter (ops ++ first) = 0

/-- A check would end a wait with key `k`. -/
def AnsweredBy (k : Digit) : Prop :=
  ∃ x, m.state.mode = .waiting x ∧ m.check.state.state.mode = .running ∧
    m.check.state.state.registers.get x = k.setWidth 8

variable {m} {p : Keypad} {ops wait : List Operation}

/-! ### The keypad at the last check -/

theorem checked_perform (op : Operation) :
    (m.perform op).state.checked = if op = .check then m.state.keypad else m.checked := by
  cases op with
  | load rom => rw [perform, load_state, if_neg (by simp)]
  | loadFrom reads => rw [perform, loadFrom_state, if_neg (by simp)]
  | check =>
    obtain ⟨registers, mode, h⟩ := check_eq_update (m := m)
    rw [perform, h, if_pos rfl]
  | step | key | tick => rfl

theorem checked_after : (m.after ops).checked = m.lastLook m.checked ops := by
  induction ops generalizing m with
  | nil => rfl
  | cons op ops ih => rw [after_cons, ih, lastLook, checked_perform]

theorem lastLook_append {later : List Operation} :
    m.lastLook p (ops ++ later) = (m.after ops).lastLook (m.lastLook p ops) later := by
  induction ops generalizing m p with
  | nil => rfl
  | cons op ops ih => exact ih

theorem lastLook_of_notMem (h : .check ∉ ops) : m.lastLook p ops = p := by
  induction ops generalizing m with
  | nil => rfl
  | cons op ops ih =>
    obtain ⟨hop, hops⟩ : .check ≠ op ∧ .check ∉ ops := by simpa using h
    rw [lastLook, if_neg (Ne.symm hop)]
    exact ih hops

theorem lastLook_of_check {first rest : List Operation} (h : .check ∉ rest) :
    m.lastLook p (first ++ .check :: rest) = (m.after first).state.keypad := by
  rw [lastLook_append, lastLook, if_pos rfl, lastLook_of_notMem h]

/-- A key that has been held all the time was held at the last check. -/
theorem holds_lastLook {k : Digit} (hp : p.holds k = true)
    (h : ∀ during later, ops = during ++ later → (m.after during).state.keypad.holds k = true) :
    (m.lastLook p ops).holds k = true := by
  induction ops generalizing m p with
  | nil => exact hp
  | cons op ops ih =>
    refine ih ?_ fun during later hd => ?_
    -- after a check the keypad of that moment is remembered, else `p` still is
    · split
      · exact h [] _ rfl
      · exact hp
    · exact h (op :: during) later (by rw [hd, List.cons_append])

/-! ### The keypad between checks -/

theorem keypad_perform {op : Operation} (h : ∀ edit, op ≠ .key edit) :
    (m.perform op).state.state.keypad = m.state.keypad := by
  cases op with
  | load rom => rw [perform, load_state]
  | loadFrom reads => rw [perform, loadFrom_state]
  | step => exact State.step_keypad
  | key edit => exact absurd rfl (h edit)
  | check =>
    obtain ⟨registers, mode, hc⟩ := check_eq_update (m := m)
    rw [perform, hc]
  | tick => rfl

/-- A key stays up until it is put down. -/
theorem up_after {k : Digit} (hm : m.state.keypad.holds k = false)
    (h : ∀ edit, .key edit ∈ ops → edit.putsDown k = false) :
    (m.after ops).state.keypad.holds k = false := by
  induction ops generalizing m with
  | nil => exact hm
  | cons op ops ih =>
    refine ih ?_ fun edit he => h edit (List.mem_cons_of_mem op he)
    by_cases hk : ∃ edit, op = .key edit
    · obtain ⟨edit, rfl⟩ := hk
      exact KeyEdit.holds_apply hm (h edit List.mem_cons_self)
    · rw [keypad_perform fun edit he => hk ⟨edit, he⟩]
      exact hm

/-- While the processor waits and no check finds a fresh key, an operation changes only memory, the
timers and the keypad. -/
theorem perform_of_waiting {x : Digit} {op : Operation} (hw : m.state.mode = .waiting x)
    (hc : op = .check → m.check.state.state = m.state) :
    ∃ timers keypad, (m.perform op).state.state =
      { m.state with
        memory := op.putRom m.state.memory, timers := timers, keypad := keypad } := by
  cases op with
  | load rom => exact ⟨m.state.timers, m.state.keypad, by rw [perform, load_state]⟩
  | loadFrom reads => exact ⟨m.state.timers, m.state.keypad, by rw [perform, loadFrom_state]⟩
  | step => exact ⟨m.state.timers, m.state.keypad, by rw [perform, step_of_waiting hw]; rfl⟩
  | key edit => exact ⟨m.state.timers, _, rfl⟩
  | check => exact ⟨m.state.timers, m.state.keypad, by rw [perform, hc rfl]; rfl⟩
  | tick => exact ⟨_, m.state.keypad, rfl⟩

/-! ### Checks -/

theorem check_of_freshKey? {x k : Digit} (hw : m.state.mode = .waiting x)
    (hk : m.state.keypad.freshKey? m.checked = some k) :
    m.check =
      .reported
        { state := { m.state.setRegister x (k.setWidth 8) with mode := .running }
          checked := m.state.keypad }
        [.keyPressed k x] := by
  rw [check, hw, hk]

theorem check_of_stale
    (h : m.state.mode = .running ∨ m.state.keypad.freshKey? m.checked = none) :
    m.check = .done { m with checked := m.state.keypad } := by
  rw [check]
  split
  · rename_i hw hk
    rcases h with h | h
    · rw [h] at hw
      cases hw
    · rw [h] at hk
      cases hk
  · rfl

/-- Only a fresh key ends a wait. -/
theorem AnsweredBy.fresh {k : Digit} (h : m.AnsweredBy k) :
    m.state.keypad.holds k = true ∧ m.checked.holds k = false := by
  obtain ⟨x, hw, hr, hx⟩ := h
  cases hf : m.state.keypad.freshKey? m.checked with
  | none =>
    rw [check_of_stale (.inr hf)] at hr
    rw [show m.state.mode = .running from hr] at hw
    cases hw
  | some k' =>
    have hk : k' = k := by
      rw [check_of_freshKey? hw hf, Outcome.state_reported] at hx
      have hx : (k'.setWidth 8 : Byte) = k.setWidth 8 := by
        rw [← hx]
        exact (Bank.get_set_self _ _ _).symm
      simpa using congrArg (BitVec.setWidth 4) hx
    rw [hk] at hf
    exact Keypad.fresh_of_freshKey? hf

/-! ### Waits -/

theorem freshAfter_eq (h₀ : m.checked = .empty) :
    m.freshAfter ops = (m.after ops).state.keypad.freshBits (m.after ops).checked := by
  rw [freshAfter, checked_after, h₀]

theorem Unanswered.tail {op : Operation} (h : m.Unanswered ops (op :: wait)) :
    m.Unanswered (ops ++ [op]) wait := by
  intro first rest hw
  have := h (op :: first) rest (by rw [hw, List.cons_append])
  rwa [List.append_cons] at this

/-- While no check finds a fresh key, the wait goes on, and only memory, the timers and the keypad
change. -/
theorem after_unanswered (h₀ : m.checked = .empty) {x : Digit}
    (hw : (m.after ops).state.mode = .waiting x) (hu : m.Unanswered ops wait) :
    ∃ timers keypad, (m.after (ops ++ wait)).state =
      { (m.after ops).state with
        memory := Operation.putRoms wait (m.after ops).state.memory
        timers := timers, keypad := keypad } := by
  induction wait generalizing ops with
  | nil =>
    rw [List.append_nil]
    exact ⟨(m.after ops).state.timers, (m.after ops).state.keypad, rfl⟩
  | cons op wait ih =>
    -- a check is the only operation that could end the wait, and it finds nothing
    have hc : op = .check → (m.after ops).check.state.state = (m.after ops).state := by
      rintro rfl
      have hz : m.freshAfter ops = 0 := by simpa using hu [] wait rfl
      rw [freshAfter_eq h₀, ← Keypad.freshKey?_eq_none] at hz
      rw [check_of_stale (.inr hz)]
      rfl
    obtain ⟨timers, keypad, hop⟩ := perform_of_waiting hw hc
    obtain ⟨timers', keypad', hwait⟩ := ih (by rw [after_concat, hop]; exact hw) hu.tail
    refine ⟨timers', keypad', ?_⟩
    rw [List.append_cons, hwait, after_concat, hop]
    rfl

theorem step_of_awaitKey (hm : m.state.mode = .running) (hf : m.state.fetch.family = 0xF)
    (hk : m.state.fetch.kk = 0x0A) :
    m.step =
      .reported
        { m with state := { m.state.advance with mode := .waiting m.state.fetch.x } }
        [m.state.trace, .awaitingKey m.state.fetch.x] := by
  rw [step, State.step_of_decode hm (Instruction.decode_awaitKey hf hk)]
  rfl

/-! ### The law -/

/-- The law of key waits at a point of the history of a machine, after the operations `ops`. -/
structure KeyWaitLaw (m : Machine) (ops : List Operation) : Prop where
  /-- The keypad looked at last is that at the last check. -/
  looked : ∀ first rest, ops = first ++ .check :: rest → .check ∉ rest →
    m.lastLook .empty ops = (m.after first).state.keypad
  /-- Before the first check, no key counts as having been down. -/
  unlooked : .check ∉ ops → m.lastLook .empty ops = .empty
  /-- In a wait, a check that finds fresh keys puts the least of them into the register, has the
  processor run, and changes nothing else. -/
  answers : ∀ x, (m.after ops).state.mode = .waiting x → m.freshAfter ops ≠ 0 →
    ∃ k : Digit, IsLeast {j | (m.freshAfter ops).getLsbD j = true} k.toNat ∧
      (m.after (ops ++ [.check])).state =
        { (m.after ops).state with
          registers := (m.after ops).state.registers.set x (k.setWidth 8), mode := .running }
  /-- Any other check changes nothing. -/
  passes : (m.after ops).state.mode = .running ∨ m.freshAfter ops = 0 →
    (m.after (ops ++ [.check])).state = (m.after ops).state
  /-- An instruction `Fx0A` starts a wait for register `x`. -/
  starts : (m.after ops).state.mode = .running → (m.after ops).state.fetch.family = 0xF →
    (m.after ops).state.fetch.kk = 0x0A →
    (m.after ops).step.fault = none ∧
      (m.after (ops ++ [.step])).state =
        { (m.after ops).state.advance with mode := .waiting (m.after ops).state.fetch.x }
  /-- As long as no check finds a fresh key, steps succeed without doing anything, and only memory,
  the timers and the keypad change, memory by loading programs only. -/
  persists : ∀ x wait, (m.after ops).state.mode = .waiting x → m.Unanswered ops wait →
    (m.after (ops ++ wait)).step = .done (m.after (ops ++ wait)) ∧
      ∃ timers keypad, (m.after (ops ++ wait)).state =
        { (m.after ops).state with
          memory := Operation.putRoms wait (m.after ops).state.memory
          timers := timers, keypad := keypad }
  /-- A wait ends at the first check at which a key is down that was up at the check before. -/
  ends : ∀ x wait, (m.after ops).state.mode = .waiting x → m.Unanswered ops wait →
    ((m.after (ops ++ wait ++ [.check])).state.mode = .running ↔
      ∃ k, (m.after (ops ++ wait)).state.keypad.holds k = true ∧
        (m.lastLook .empty (ops ++ wait)).holds k = false)
  /-- A key that has been held ever since a check does not end a wait. -/
  held : ∀ first rest k, ops = first ++ .check :: rest →
    (∀ during later, rest = during ++ later →
      (m.after (first ++ .check :: during)).state.keypad.holds k = true) →
    ¬ (m.after ops).AnsweredBy k
  /-- A key that is up at a check does not end a wait, whatever happened to it before. -/
  up : ∀ k, (m.after ops).state.keypad.holds k = false → ¬ (m.after ops).AnsweredBy k
  /-- A key that has been released and not been put down since does not end a wait. -/
  released : ∀ first rest key, ops = first ++ .key (.release key) :: rest →
    (∀ edit, .key edit ∈ rest → edit.putsDown (Keypad.keyOf key) = false) →
    ¬ (m.after ops).AnsweredBy (Keypad.keyOf key)

theorem keyWaitLaw_after (h₀ : m.checked = .empty) (ops : List Operation) : m.KeyWaitLaw ops where
  looked first rest ho hr := by
    rw [ho]
    exact lastLook_of_check hr
  unlooked h := lastLook_of_notMem h
  answers x hw hf := by
    rw [freshAfter_eq h₀] at hf ⊢
    cases hk : (m.after ops).state.keypad.freshKey? (m.after ops).checked with
    | none => exact absurd (Keypad.freshKey?_eq_none.1 hk) hf
    | some k =>
      refine ⟨k, Keypad.freshKey?_eq_some.1 hk, ?_⟩
      rw [after_concat, perform, check_of_freshKey? hw hk]
      rfl
  passes h := by
    rw [freshAfter_eq h₀, ← Keypad.freshKey?_eq_none] at h
    rw [after_concat, perform, check_of_stale h]
    rfl
  starts hm hf hk := by
    rw [after_concat, perform, step_of_awaitKey hm hf hk]
    exact ⟨rfl, rfl⟩
  persists x wait hw hu := by
    obtain ⟨timers, keypad, hs⟩ := after_unanswered h₀ hw hu
    exact ⟨step_of_waiting (by rw [hs]; exact hw), timers, keypad, hs⟩
  ends x wait hw hu := by
    obtain ⟨timers, keypad, hs⟩ := after_unanswered h₀ hw hu
    have hwait : (m.after (ops ++ wait)).state.mode = .waiting x := by
      rw [hs]
      exact hw
    have hlook : (m.after (ops ++ wait)).checked = m.lastLook .empty (ops ++ wait) := by
      rw [checked_after, h₀]
    rw [after_concat, perform]
    cases hk : (m.after (ops ++ wait)).state.keypad.freshKey? (m.after (ops ++ wait)).checked with
    | none =>
      have hnone := Keypad.freshBits_eq_zero.1 (Keypad.freshKey?_eq_none.1 hk)
      rw [check_of_stale (.inr hk), Outcome.state_done, hwait]
      refine iff_of_false (by simp) ?_
      rintro ⟨k, hd, hu⟩
      have := hnone k
      rw [hlook, hd, hu] at this
      cases this
    | some k =>
      rw [check_of_freshKey? hwait hk, ← hlook]
      exact iff_of_true rfl ⟨k, Keypad.fresh_of_freshKey? hk⟩
  held first rest k ho hd ha := by
    have hc : (m.after ops).checked.holds k = true := by
      rw [ho, after_append, after_cons, checked_after]
      refine holds_lastLook ?_ fun during later hr => ?_
      · have hnow := hd [] rest rfl
        rw [after_concat, keypad_perform (by simp)] at hnow
        rw [checked_perform, if_pos rfl, hnow]
      · rw [← after_cons, ← after_append]
        exact hd during later hr
    rw [ha.fresh.2] at hc
    cases hc
  up k hu ha := by
    rw [ha.fresh.1] at hu
    cases hu
  released first rest key ho hr ha := by
    have hu : (m.after ops).state.keypad.holds (Keypad.keyOf key) = false := by
      rw [ho, after_append, after_cons]
      refine up_after ?_ hr
      exact (Keypad.holds_release _ key _).trans (by simp)
    rw [ha.fresh.1] at hu
    cases hu

/-- **A key wait ends at the first check that finds a key down which was up at the check before**,
and until then nothing that happens to a new machine has its program go on. Calls of the machine,
whole sessions included, are operations one after the other, and after any operations the law of
key waits holds. -/
theorem keyWaitLaw_of_calls (random : RandomSource) :
    (∀ calls : List Call,
      (new random).afterCalls calls = (new random).after ((new random).history calls)) ∧
      ∀ ops : List Operation, (new random).KeyWaitLaw ops :=
  ⟨fun _ => afterCalls_eq_after, keyWaitLaw_after rfl⟩

end Machine

end ChipEight
