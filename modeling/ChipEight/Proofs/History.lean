import ChipEight.Proofs.Effects
import ChipEight.Session

/-!
# Histories of a machine

What the surroundings of a machine can have it do, as data, and the machine after a list of such
operations. Operations follow each other whether they succeed or fail.

* `Operation`, `Machine.perform` : one operation and its outcome;
* `Operation.putRom`, `Operation.putRoms` : what operations load into memory;
* `Machine.after` : the machine after a list of operations;
* `Machine.after_invariant` : what every operation keeps holds after all of them;
* `Machine.perform_eq_update` : the parts of the state that only a step can change;
* `Machine.wordOf?` : the word that an operation executes, if it executes one;
* `Machine.along` : what can be gathered from one operation after the other;
* `Machine.executions` : the instructions executed on the way, by their faults;
* `Machine.executed_cases` : only by executing one can an operation move the program counter.
-/

namespace ChipEight

/-- What its surroundings can have a machine do. -/
inductive Operation where
  /-- Load a program. -/
  | load (rom : List Byte)
  /-- Load a program that arrives in pieces. -/
  | loadFrom (reads : List ReadEvent)
  /-- Execute an instruction, unless the processor waits for a key. -/
  | step
  /-- Change the keypad. -/
  | key (edit : KeyEdit)
  /-- Check a pending key wait. -/
  | check
  /-- Tick the timers. -/
  | tick
deriving DecidableEq, Repr

namespace Operation

/-- A program that is short enough to be loaded. -/
def fitting? (rom : List Byte) : Option (List Byte) :=
  if maxRomSize < rom.length then none else some rom

/-- The program that an operation puts into memory, if it does. -/
def rom? : Operation → Option (List Byte)
  | load rom => fitting? rom
  | loadFrom reads =>
    match ReadEvent.collect reads with
    | .ok rom => fitting? rom
    | .error _ => none
  | _ => none

/-- The memory after an operation has put its program, if it does, into it. -/
def putRom (op : Operation) (memory : Memory) : Memory :=
  match op.rom? with
  | some rom => memory.load rom
  | none => memory

theorem putRom_of_none {op : Operation} {memory : Memory} (h : op.rom? = none) :
    op.putRom memory = memory := by
  rw [putRom, h]

/-- The memory after the operations have put their programs into it. -/
def putRoms (ops : List Operation) (memory : Memory) : Memory :=
  ops.foldl (fun memory op => op.putRom memory) memory

end Operation

namespace Machine

/-- The outcome of an operation. -/
def perform (m : Machine) : Operation → Outcome Machine
  | .load rom => m.load rom
  | .loadFrom reads => m.loadFrom reads
  | .step => m.step
  | .key edit => .done (m.editKeypad [edit])
  | .check => m.check
  | .tick => .done m.tick

/-- The machine after a list of operations. -/
def after (m : Machine) (ops : List Operation) : Machine :=
  ops.foldl (fun m op => (m.perform op).state) m

variable {m : Machine}

@[simp] theorem after_nil : m.after [] = m := rfl

@[simp] theorem after_cons {op : Operation} {ops : List Operation} :
    m.after (op :: ops) = (m.perform op).state.after ops := rfl

theorem after_append {ops later : List Operation} :
    m.after (ops ++ later) = (m.after ops).after later :=
  List.foldl_append

theorem after_concat {ops : List Operation} {op : Operation} :
    m.after (ops ++ [op]) = ((m.after ops).perform op).state :=
  after_append

/-- What every operation keeps holds after all of them. -/
theorem after_invariant {I : Machine → Prop} (h₀ : I m)
    (hop : ∀ m op, I m → I (m.perform op).state) (ops : List Operation) : I (m.after ops) := by
  induction ops generalizing m with
  | nil => exact h₀
  | cons op ops ih => exact ih (hop m op h₀)

/-! ### What operations change -/

theorem step_of_waiting {x : Digit} (h : m.state.mode = .waiting x) : m.step = .done m := by
  rw [step, State.step, h]
  rfl

theorem load_state (rom : List Byte) :
    (m.load rom).state =
      { m with
        state := { m.state with memory := (Operation.load rom).putRom m.state.memory } } := by
  rw [load, Operation.putRom, Operation.rom?, Operation.fitting?]
  split
  · rfl
  · rfl

theorem load_of_le {rom : List Byte} (h : rom.length ≤ 3584) :
    m.load rom =
      .reported { m with state := { m.state with memory := m.state.memory.load rom } }
        [.loadedRom rom.length] :=
  if_neg (Nat.not_lt.2 h)

theorem load_of_lt {rom : List Byte} (h : 3584 < rom.length) :
    m.load rom = .failed m (.romTooLarge rom.length) :=
  if_pos h

theorem fault_load_eq_none_iff {rom : List Byte} :
    (m.load rom).fault = none ↔ rom.length ≤ 3584 := by
  by_cases h : rom.length ≤ 3584
  · rw [load_of_le h]
    exact iff_of_true rfl h
  · rw [load_of_lt (Nat.not_le.1 h)]
    exact iff_of_false (by simp) h

theorem load_new (random : RandomSource) {rom : List Byte} (h : rom.length ≤ 3584) :
    (new random).load rom =
      .reported { new random with
        state := { State.initial random with memory := Memory.initial.load rom } }
        [.loadedRom rom.length] :=
  load_of_le h

theorem loadFrom_state (reads : List ReadEvent) :
    (m.loadFrom reads).state =
      { m with
        state :=
          { m.state with memory := (Operation.loadFrom reads).putRom m.state.memory } } := by
  cases h : ReadEvent.collect reads with
  | ok rom =>
    have hr : (Operation.loadFrom reads).rom? = (Operation.load rom).rom? := by
      simp only [Operation.rom?, h]
    rw [loadFrom, h, load_state, Operation.putRom, Operation.putRom, hr]
  | error reason =>
    rw [loadFrom, h, Operation.putRom_of_none (by simp only [Operation.rom?, h])]
    rfl

theorem check_eq_update :
    ∃ registers mode, m.check.state =
      { state := { m.state with registers := registers, mode := mode }
        checked := m.state.keypad } := by
  rw [check]
  split
  · exact ⟨_, _, rfl⟩
  · exact ⟨m.state.registers, m.state.mode, rfl⟩

/-- Any other operation than a step puts its program into memory, and changes the timers, the
keypad, the registers and the mode at most. -/
theorem perform_eq_update {op : Operation} (h : op ≠ .step) :
    ∃ timers keypad registers mode, (m.perform op).state.state =
      { m.state with
        memory := op.putRom m.state.memory
        timers := timers, keypad := keypad, registers := registers, mode := mode } := by
  cases op with
  | load rom =>
    refine ⟨m.state.timers, m.state.keypad, m.state.registers, m.state.mode, ?_⟩
    rw [perform, load_state]
  | loadFrom reads =>
    refine ⟨m.state.timers, m.state.keypad, m.state.registers, m.state.mode, ?_⟩
    rw [perform, loadFrom_state]
  | step => exact absurd rfl h
  | key edit => exact ⟨m.state.timers, _, m.state.registers, m.state.mode, rfl⟩
  | check =>
    obtain ⟨registers, mode, hc⟩ := check_eq_update (m := m)
    refine ⟨m.state.timers, m.state.keypad, registers, mode, ?_⟩
    rw [perform, hc]
    rfl
  | tick => exact ⟨_, m.state.keypad, m.state.registers, m.state.mode, rfl⟩

/-! ### The instructions executed -/

variable (m) in
/-- The word that an operation executes, if it executes one: while the processor waits for a key, a
step executes nothing. -/
def wordOf? : Operation → Option Word
  | .step => if m.state.mode = .running then some m.state.fetch else none
  | _ => none

theorem wordOf?_eq_some {op : Operation} {w : Word} (h : m.wordOf? op = some w) :
    op = .step ∧ m.state.mode = .running ∧ m.state.fetch = w := by
  cases op with
  | step =>
    by_cases hm : m.state.mode = .running
    · rw [wordOf?, if_pos hm] at h
      exact ⟨rfl, hm, Option.some.inj h⟩
    · rw [wordOf?, if_neg hm] at h
      cases h
  | _ => cases h

theorem perform_of_wordOf?_some {op : Operation} {w : Word} (h : m.wordOf? op = some w) :
    m.perform op =
      ((m.state.perform w w).after [m.state.trace]).map fun s => { m with state := s } := by
  obtain ⟨rfl, hm, rfl⟩ := wordOf?_eq_some h
  rw [perform, step, State.step_of_running hm]

theorem state_of_wordOf?_some {op : Operation} {w : Word} (h : m.wordOf? op = some w) :
    (m.perform op).state.state = ((Instruction.decode w).execute w m.state.advance).state := by
  rw [perform_of_wordOf?_some h, Outcome.state_map, Outcome.state_after, State.perform]

/-- An operation that executes nothing is a step of a waiting processor or no step at all. -/
theorem perform_of_wordOf?_none {op : Operation} (h : m.wordOf? op = none) :
    (op = .step ∧ m.perform op = .done m) ∨ op ≠ .step := by
  by_cases hop : op = .step
  · subst hop
    cases hm : m.state.mode with
    | running =>
      rw [wordOf?, if_pos hm] at h
      cases h
    | waiting x => exact .inl ⟨rfl, step_of_waiting hm⟩
  · exact .inr hop

/-- What `f` finds in each of the operations, when it looks at the machine that performs it. -/
def along {α : Type} (f : Machine → Operation → List α) : Machine → List Operation → List α
  | _, [] => []
  | m, op :: ops => f m op ++ along f (m.perform op).state ops

variable {α : Type} {f : Machine → Operation → List α} {op : Operation} {ops later : List Operation}

theorem along_cons :
    m.along f (op :: ops) = f m op ++ (m.perform op).state.along f ops := rfl

theorem along_append :
    m.along f (ops ++ later) = m.along f ops ++ (m.after ops).along f later := by
  induction ops generalizing m with
  | nil => rfl
  | cons op ops ih =>
    rw [List.cons_append, along_cons, along_cons, ih, List.append_assoc]
    rfl

variable (m) in
/-- The fault of the instruction that an operation executes, if it executes one. -/
def executed (op : Operation) : List (Option Fault) :=
  (m.wordOf? op).toList.map fun _ => (m.perform op).fault

variable (m) in
/-- The faults of all instructions executed, in order; `none` stands for success. -/
def executions (ops : List Operation) : List (Option Fault) := m.along executed ops

theorem executions_cons :
    m.executions (op :: ops) = m.executed op ++ (m.perform op).state.executions ops := rfl

/-- An operation executes an instruction, or else moves neither the program counter nor the call
stack. -/
theorem executed_cases (m : Machine) (op : Operation) :
    (op = .step ∧ m.state.mode = .running ∧ m.executed op = [m.step.fault]) ∨
      (m.executed op = [] ∧ (m.perform op).state.state.pc = m.state.pc ∧
        (m.perform op).state.state.stack = m.state.stack) := by
  cases h : m.wordOf? op with
  | some w =>
    obtain ⟨rfl, hm, -⟩ := wordOf?_eq_some h
    refine .inl ⟨rfl, hm, ?_⟩
    rw [executed, h]
    rfl
  | none =>
    refine .inr ⟨by rw [executed, h]; rfl, ?_⟩
    rcases perform_of_wordOf?_none h with ⟨-, hdone⟩ | hop
    · rw [hdone]
      exact ⟨rfl, rfl⟩
    · obtain ⟨timers, keypad, registers, mode, hs⟩ := perform_eq_update (m := m) hop
      rw [hs]
      exact ⟨rfl, rfl⟩

/-! ### Several operations of a kind -/

theorem editKeypad_cons {edit : KeyEdit} {edits : List KeyEdit} :
    m.editKeypad (edit :: edits) = (m.editKeypad [edit]).editKeypad edits := rfl

theorem after_keys {edits : List KeyEdit} :
    m.after (edits.map .key) = m.editKeypad edits := by
  induction edits generalizing m with
  | nil => rfl
  | cons edit edits ih =>
    rw [List.map_cons, after_cons, editKeypad_cons]
    exact ih

theorem ticks_succ {n : Nat} : m.ticks (n + 1) = m.tick.ticks n := rfl

theorem after_ticks {n : Nat} : m.after (List.replicate n .tick) = m.ticks n := by
  induction n generalizing m with
  | zero => rfl
  | succ n ih =>
    rw [List.replicate_succ, after_cons, ticks_succ]
    exact ih

end Machine

end ChipEight
