import ChipEight.Proofs.InstructionSet
import ChipEight.Proofs.Rounds

/-!
# The order of random numbers

One instruction takes a random number, and it takes a single one; nothing else that a machine does
touches the stream. The numbers taken so far are therefore as many as the instructions of this
kind that have been executed, and the next one of them gets the next number. Faults, key waits,
further programs and whole sessions in between do not count. Which numbers the stream holds does not
matter; a seed is one way to name a stream.

* `Roll`, `Machine.rollOf?`, `Machine.rolls` : an instruction that takes a random number, the one
  that an operation executes, and all that several operations execute;
* `Machine.rollOf?_cases` : an operation either takes the next number or none;
* `Machine.random_after`, `Machine.result_of_getElem?_rolls` : what several operations take;
* `Machine.rolls_of_calls` : the result, for every stream.
-/

namespace ChipEight

/-- An instruction that has taken a random number. -/
structure Roll where
  /-- The register for the number. -/
  register : Digit
  /-- The bits of the number that are kept. -/
  mask : Byte
  /-- What the register holds after the instruction. -/
  result : Byte
deriving DecidableEq, Repr

namespace Machine

/-- The instruction that an operation executes, if that one takes a random number. -/
def rollOf? (m : Machine) (op : Operation) : Option Roll :=
  match m.wordOf? op with
  | some w =>
    if w.family = 0xC then
      some ⟨w.x, w.kk, (m.perform op).state.state.registers.get w.x⟩
    else none
  | none => none

/-- All instructions executed that take a random number, in order. -/
def rolls (m : Machine) (ops : List Operation) : List Roll :=
  m.along (fun m op => (m.rollOf? op).toList) ops

variable {m : Machine} {op : Operation} {ops : List Operation}

theorem rolls_cons :
    m.rolls (op :: ops) = (m.rollOf? op).toList ++ (m.perform op).state.rolls ops := rfl

/-! ### One operation -/

theorem random_of_wordOf?_none (h : m.wordOf? op = none) :
    (m.perform op).state.state.random = m.state.random := by
  rcases perform_of_wordOf?_none h with ⟨-, hdone⟩ | hop
  · rw [hdone, Outcome.state_done]
  · obtain ⟨timers, keypad, registers, mode, hs⟩ := perform_eq_update (m := m) hop
    rw [hs]

theorem random_of_family_ne {w : Word} (h : m.wordOf? op = some w) (hw : w.family ≠ 0xC) :
    (m.perform op).state.state.random = m.state.random := by
  have hne (x : Digit) (kk : Byte) : Instruction.decode w ≠ .random x kk :=
    fun hd => hw (Instruction.decode_eq_random_iff.1 hd).1
  rw [state_of_wordOf?_some h, Instruction.execute_randomAfter,
    Instruction.randomAfter_of_ne _ hne]
  rfl

theorem state_of_family_eq {w : Word} (h : m.wordOf? op = some w) (hw : w.family = 0xC) :
    (m.perform op).state.state = m.state.advance.randomize w.x w.kk := by
  rw [state_of_wordOf?_some h, Instruction.decode_eq_random_iff.2 ⟨hw, rfl, rfl⟩]
  rfl

/-- An operation takes no random number, or executes the one instruction that takes the next one. -/
theorem rollOf?_cases (m : Machine) (op : Operation) :
    (m.rollOf? op = none ∧ (m.perform op).state.state.random = m.state.random) ∨
      ∃ roll, m.rollOf? op = some roll ∧ roll.result = m.state.random.byte &&& roll.mask ∧
        (m.perform op).state.state.random = m.state.random.advance := by
  cases h : m.wordOf? op with
  | none => exact .inl ⟨by rw [rollOf?, h], random_of_wordOf?_none h⟩
  | some w =>
    by_cases hw : w.family = 0xC
    · have hs := state_of_family_eq h hw
      refine .inr ⟨_, by rw [rollOf?, h]; exact if_pos hw, ?_, by rw [hs]; rfl⟩
      rw [hs]
      exact Bank.get_set_self _ _ _
    · exact .inl ⟨by rw [rollOf?, h]; exact if_neg hw, random_of_family_ne h hw⟩

/-! ### Several operations -/

theorem random_after :
    (m.after ops).state.random =
      { m.state.random with used := m.state.random.used + (m.rolls ops).length } := by
  induction ops generalizing m with
  | nil => rfl
  | cons op ops ih =>
    rw [after_cons, ih, rolls_cons]
    rcases m.rollOf?_cases op with ⟨hnone, hr⟩ | ⟨roll, hsome, -, hr⟩
    · rw [hnone, hr]
      rfl
    · rw [hsome, hr, Option.toList_some, List.singleton_append, List.length_cons,
        RandomSource.advance, Nat.add_assoc, Nat.add_comm 1]

/-- Each instruction gets the number of the stream that is its turn. -/
theorem result_of_getElem?_rolls {k : Nat} {roll : Roll} (h : (m.rolls ops)[k]? = some roll) :
    roll.result = m.state.random.byteAt (m.state.random.used + k) &&& roll.mask := by
  induction ops generalizing m k with
  | nil => cases h
  | cons op ops ih =>
    rw [rolls_cons] at h
    rcases m.rollOf?_cases op with ⟨hnone, hr⟩ | ⟨first, hsome, hresult, hr⟩
    · rw [hnone] at h
      rw [← hr]
      exact ih h
    · rw [hsome, Option.toList_some, List.singleton_append] at h
      cases k with
      | zero =>
        obtain rfl : first = roll := Option.some.inj h
        exact hresult
      | succ k =>
        have hk : m.state.random.used + (k + 1) = m.state.random.advance.used + k := by
          rw [RandomSource.advance, Nat.add_right_comm, Nat.add_assoc]
        rw [hk, ih h, hr]
        rfl

/-- **Random numbers are used one each, in order.** In a machine made with a stream of numbers, the
instruction that is number `k` of those that take a random number gets number `k` of the stream,
of which it keeps the bits of its mask, whatever the calls of the machine are. As many numbers
have been taken as there have been such instructions, and no operation that does not execute one
takes any. -/
theorem rolls_of_calls (stream : Nat → UInt32) (calls : List Call) :
    let m := new ⟨stream, 0⟩
    let rolls := m.rolls (m.history calls)
    m.afterCalls calls = m.after (m.history calls) ∧
      (∀ k roll, rolls[k]? = some roll →
        roll.result = (stream k).toBitVec.setWidth 8 &&& roll.mask) ∧
      (m.afterCalls calls).state.random = ⟨stream, rolls.length⟩ ∧
      ∀ op, (m.afterCalls calls).rollOf? op = none →
        ((m.afterCalls calls).perform op).state.state.random =
          (m.afterCalls calls).state.random := by
  intro m rolls
  refine ⟨afterCalls_eq_after, fun k roll h => ?_, ?_, fun op hop => ?_⟩
  · have hresult := result_of_getElem?_rolls h
    rwa [show m.state.random.used + k = k from Nat.zero_add k] at hresult
  · rw [afterCalls_eq_after, random_after]
    show RandomSource.mk stream (0 + rolls.length) = _
    rw [Nat.zero_add]
  · rcases (m.afterCalls calls).rollOf?_cases op with ⟨-, hr⟩ | ⟨roll, hsome, -⟩
    · exact hr
    · rw [hop] at hsome
      cases hsome

/-- A machine made from a seed is made with the stream of the seed. -/
example (seed : UInt64) : ofSeed seed = new ⟨(RandomSource.ofSeed seed).stream, 0⟩ := rfl

end Machine

end ChipEight
