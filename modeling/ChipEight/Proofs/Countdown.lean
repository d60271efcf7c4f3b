import ChipEight.Proofs.InstructionSet
import ChipEight.Proofs.Observation
import Mathlib.Data.List.Induction

/-!
# Timers over a history

A timer changes in two ways only: an instruction sets it, or it ticks. What it holds is therefore
told by what was last put into it and by the number of ticks since then, whatever else has
happened, and so is what the ticks tell of the buzzer.

* `Timer`, `Timer.value`, `Timer.set` : one of the two timers, its byte, and the instruction that
  sets it;
* `Machine.setting?`, `Machine.settings` : what an operation puts into a timer, and what several
  operations put into it;
* `Machine.LastSet` : what was last put into a timer, and the ticks since then;
* `Machine.told` : what the ticks among several operations tell of the buzzer;
* `Machine.value_of_setting?_some`, `Machine.toNat_value_of_setting?_none` : a timer after one
  operation;
* `Machine.told_eq_buzzers` : what ticks tell while nothing sets the sound timer;
* `Machine.countdown_of_history` : the result, for all histories of a new machine.
-/

namespace ChipEight

/-- One of the two timers. -/
inductive Timer where
  /-- The delay timer. -/
  | delay
  /-- The sound timer. -/
  | sound
deriving DecidableEq, Repr

namespace Timer

/-- The byte that the timer holds. -/
def value : Timer → Timers → Byte
  | delay, ts => ts.delay
  | sound, ts => ts.sound

/-- The low byte of the words that set the timer. -/
def code : Timer → Byte
  | delay => 0x15
  | sound => 0x18

/-- The instruction that sets the timer from register `x`. -/
def set : Timer → Digit → Instruction
  | delay, x => .setDelay x
  | sound, x => .setSound x

variable {t : Timer} {i : Instruction}

theorem decode_eq_set_iff {w : Word} {x : Digit} :
    Instruction.decode w = t.set x ↔ w.family = 0xF ∧ w.x = x ∧ w.kk = t.code := by
  constructor
  · intro h
    refine Instruction.fields_of_decode h ?_
    cases t with
    | _ => rfl
  · rintro ⟨hf, rfl, hk⟩
    rw [Instruction.decode_of_transfer hf, Instruction.decodeTransfer, hk]
    cases t with
    | _ => rfl

theorem value_timersAfter_set (s : State) (x : Digit) :
    t.value ((t.set x).timersAfter s) = s.registers.get x := by
  cases t with
  | _ => rfl

theorem value_timersAfter_of_ne (s : State) (h : ∀ x, i ≠ t.set x) :
    t.value (i.timersAfter s) = t.value s.timers := by
  cases i with
  | setDelay x =>
    cases t with
    | delay => exact absurd rfl (h x)
    | sound => rfl
  | setSound x =>
    cases t with
    | delay => rfl
    | sound => exact absurd rfl (h x)
  | _ => rfl

theorem toNat_value_after (n : Nat) (ts : Timers) :
    (t.value (ts.after n)).toNat = (t.value ts).toNat - n := by
  cases t with
  | delay => exact (ts.toNat_after n).1
  | sound => exact (ts.toNat_after n).2

end Timer

namespace Machine

/-- What an operation puts into a timer, if it executes an instruction that sets it. -/
def setting? (m : Machine) (t : Timer) (op : Operation) : Option Byte :=
  match m.wordOf? op with
  | some w => if w.family = 0xF ∧ w.kk = t.code then some (m.state.registers.get w.x) else none
  | none => none

/-- All that is put into a timer, in order. -/
def settings (m : Machine) (t : Timer) (ops : List Operation) : List Byte :=
  m.along (fun m op => (m.setting? t op).toList) ops

/-- What the ticks tell of the buzzer, in order. -/
def told (m : Machine) (ops : List Operation) : List Buzzer :=
  m.along (fun m op => (m.buzzerOf? op).toList) ops

/-- Among the operations, `v` was put into the timer last, and there were `n` ticks after that; if
nothing was put into it at all, `v` is zero. -/
inductive LastSet (m : Machine) (t : Timer) : List Operation → Byte → Nat → Prop
  /-- Nothing was put into the timer. -/
  | never {ops : List Operation} (h : m.settings t ops = []) : LastSet m t ops 0 (ops.count .tick)
  /-- An operation put `v` into the timer, and no later one put anything into it. -/
  | set {first rest : List Operation} {op : Operation} {v : Byte}
      (h : (m.after first).setting? t op = some v)
      (hrest : (m.after (first ++ [op])).settings t rest = []) :
      LastSet m t (first ++ op :: rest) v (rest.count .tick)

variable {m : Machine} {t : Timer} {op : Operation} {ops : List Operation}

theorem settings_cons_eq_nil :
    m.settings t (op :: ops) = [] ↔
      m.setting? t op = none ∧ (m.perform op).state.settings t ops = [] := by
  rw [settings, along, List.append_eq_nil_iff, Option.toList_eq_nil_iff]
  rfl

theorem settings_concat_eq_nil :
    m.settings t (ops ++ [op]) = [] ↔
      m.settings t ops = [] ∧ (m.after ops).setting? t op = none := by
  rw [settings, along_append, List.append_eq_nil_iff, ← settings, ← settings, settings_cons_eq_nil]
  simp [settings, along]

/-! ### One operation -/

theorem timers_of_wordOf?_none (h : m.wordOf? op = none) :
    (m.perform op).state.state.timers = m.state.timers.after ([op].count .tick) := by
  rcases perform_of_wordOf?_none h with ⟨rfl, hdone⟩ | hop
  · rw [hdone]
    rfl
  · cases op with
    | load rom => rw [perform, load_state]; rfl
    | loadFrom reads => rw [perform, loadFrom_state]; rfl
    | step => exact absurd rfl hop
    | key edit => rfl
    | check =>
      obtain ⟨registers, mode, hc⟩ := check_eq_update (m := m)
      rw [perform, hc]
      rfl
    | tick => rfl

theorem timers_of_wordOf?_some {w : Word} (h : m.wordOf? op = some w) :
    (m.perform op).state.state.timers = (Instruction.decode w).timersAfter m.state.advance := by
  rw [state_of_wordOf?_some h, Instruction.execute_timersAfter]

theorem value_of_setting?_some {v : Byte} (h : m.setting? t op = some v) :
    t.value (m.perform op).state.state.timers = v := by
  cases hw : m.wordOf? op with
  | none => simp [setting?, hw] at h
  | some w =>
    obtain ⟨⟨hf, hk⟩, hv⟩ : (w.family = 0xF ∧ w.kk = t.code) ∧ m.state.registers.get w.x = v := by
      simpa [setting?, hw] using h
    rw [timers_of_wordOf?_some hw, Timer.decode_eq_set_iff.2 ⟨hf, rfl, hk⟩,
      Timer.value_timersAfter_set]
    exact hv

theorem toNat_value_of_setting?_none (h : m.setting? t op = none) :
    (t.value (m.perform op).state.state.timers).toNat =
      (t.value m.state.timers).toNat - [op].count .tick := by
  cases hw : m.wordOf? op with
  | none => rw [timers_of_wordOf?_none hw, Timer.toNat_value_after]
  | some w =>
    have hne (x : Digit) : Instruction.decode w ≠ t.set x := by
      intro hd
      obtain ⟨hf, -, hk⟩ := Timer.decode_eq_set_iff.1 hd
      simp [setting?, hw, hf, hk] at h
    obtain ⟨rfl, -⟩ := wordOf?_eq_some hw
    rw [timers_of_wordOf?_some hw, Timer.value_timersAfter_of_ne _ hne]
    rfl

/-! ### Several operations -/

/-- While nothing sets it, a timer counts the ticks down. -/
theorem toNat_value_of_settings_eq_nil (h : m.settings t ops = []) :
    (t.value (m.after ops).state.timers).toNat =
      (t.value m.state.timers).toNat - ops.count .tick := by
  induction ops generalizing m with
  | nil => rfl
  | cons op ops ih =>
    obtain ⟨hop, hops⟩ := settings_cons_eq_nil.1 h
    rw [after_cons, ih hops, toNat_value_of_setting?_none hop, Nat.sub_sub, ← List.count_append,
      List.singleton_append]

/-- In every history there is something that was last put into a timer, zero at least. -/
theorem exists_lastSet (m : Machine) (t : Timer) (ops : List Operation) :
    ∃ v n, m.LastSet t ops v n := by
  induction ops using List.reverseRecOn with
  | nil => exact ⟨0, 0, .never rfl⟩
  | append_singleton ops op ih =>
    cases h : (m.after ops).setting? t op with
    | some v => exact ⟨v, 0, .set h rfl⟩
    | none =>
      obtain ⟨v, n, hlast⟩ := ih
      cases hlast with
      | never hnil => exact ⟨0, _, .never (settings_concat_eq_nil.2 ⟨hnil, h⟩)⟩
      | @set first rest last v hlast hrest =>
        have hrest' : (m.after (first ++ [last])).settings t (rest ++ [op]) = [] := by
          refine settings_concat_eq_nil.2 ⟨hrest, ?_⟩
          rwa [← after_append, List.append_assoc]
        refine ⟨v, (rest ++ [op]).count .tick, ?_⟩
        rw [List.append_assoc]
        exact .set hlast hrest'

theorem LastSet.toNat_value {v : Byte} {n : Nat} (h : m.LastSet t ops v n)
    (hzero : t.value m.state.timers = 0) :
    (t.value (m.after ops).state.timers).toNat = v.toNat - n := by
  cases h with
  | never hnil => rw [toNat_value_of_settings_eq_nil hnil, hzero]
  | set hlast hrest =>
    rw [after_concat] at hrest
    rw [after_append, after_cons, toNat_value_of_settings_eq_nil hrest,
      value_of_setting?_some hlast]

/-- While nothing sets the sound timer, ticks tell of the buzzer as they do one right after the
other. -/
theorem told_eq_buzzers (h : m.settings .sound ops = []) :
    m.told ops = m.state.timers.buzzers (ops.count .tick) := by
  induction ops generalizing m with
  | nil => rfl
  | cons op ops ih =>
    obtain ⟨hop, hops⟩ := settings_cons_eq_nil.1 h
    have hrest := ih hops
    have hsound := toNat_value_of_setting?_none hop
    by_cases htick : op = .tick
    · subst htick
      rw [List.count_cons_self]
      exact congrArg (m.state.timers.buzzer :: ·) hrest
    · have hcount : [op].count .tick = 0 := by simp [htick]
      rw [hcount, Nat.sub_zero] at hsound
      have hnone : m.buzzerOf? op = none := by
        cases op with
        | tick => exact absurd rfl htick
        | _ => rfl
      rw [told, along, hnone, List.count_cons_of_ne htick,
        ← Timers.buzzers_of_sound_eq _ (BitVec.eq_of_toNat_eq hsound)]
      exact hrest

/-- While nothing sets the sound timer, at most one tick stops the buzzer, and one does so if the
timer was above zero and the ticks suffice. -/
theorem count_stopped_told (h : m.settings .sound ops = []) :
    (m.told ops).count .stopped =
      if 0 < m.state.timers.sound.toNat ∧ m.state.timers.sound.toNat ≤ ops.count .tick then 1
      else 0 := by
  rw [told_eq_buzzers h, List.count_eq_length_filter, Timers.stops_eq]
  split
  · rfl
  · rfl

/-- **The timers over every history of a new machine.** A timer holds what an instruction has last
put into it, less the ticks since then, but never less than zero. A tick tells of the buzzer by
the sound timer before it. While nothing sets the sound timer again after `v` has been put into
it, at most one tick stops the buzzer, and one does so if and only if `v` is above zero and there
are at least `v` ticks. -/
theorem countdown_of_history (random : RandomSource) :
    let m := new random
    (∀ calls, m.afterCalls calls = m.after (m.history calls)) ∧
      (∀ t ops, (∃ v n, m.LastSet t ops v n) ∧
        ∀ v n, m.LastSet t ops v n →
          (t.value (m.after ops).state.timers).toNat = v.toNat - n) ∧
      (∀ ops, ∃ buzzer, (m.after ops).buzzerOf? .tick = some buzzer ∧
        ((m.after ops).state.timers.sound.toNat = 0 ∧ buzzer = .silent ∨
          (m.after ops).state.timers.sound.toNat = 1 ∧ buzzer = .stopped ∨
          2 ≤ (m.after ops).state.timers.sound.toNat ∧ buzzer = .sounding)) ∧
      (∀ first op rest v, (m.after first).setting? .sound op = some v →
        (m.after (first ++ [op])).settings .sound rest = [] →
        ((m.after (first ++ [op])).told rest).count .stopped ≤ 1 ∧
          (((m.after (first ++ [op])).told rest).count .stopped = 1 ↔
            0 < v.toNat ∧ v.toNat ≤ rest.count .tick)) ∧
      ∀ (ts : Timers) (n : Nat), (ts.after n).delay.toNat = ts.delay.toNat - n ∧
        (ts.after n).sound.toNat = ts.sound.toNat - n := by
  intro m
  refine ⟨fun calls => afterCalls_eq_after, fun t ops => ⟨exists_lastSet m t ops, ?_⟩,
    fun ops => ⟨_, rfl, Timers.buzzer_cases _⟩, fun first op rest v hset hrest => ?_,
    fun ts n => ts.toNat_after n⟩
  · intro v n h
    refine h.toNat_value ?_
    cases t with
    | _ => rfl
  · have hsound : (m.after (first ++ [op])).state.timers.sound = v := by
      rw [after_concat]
      exact value_of_setting?_some hset
    rw [count_stopped_told hrest, hsound]
    by_cases hv : 0 < v.toNat ∧ v.toNat ≤ rest.count .tick
    · rw [if_pos hv]
      exact ⟨Nat.le_refl 1, iff_of_true rfl hv⟩
    · rw [if_neg hv]
      exact ⟨Nat.zero_le 1, iff_of_false (by decide) hv⟩

end Machine

end ChipEight
