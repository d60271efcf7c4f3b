import ChipEight.Proofs.Composition
import ChipEight.Proofs.Faults

/-!
# What a failing instruction leaves behind

An instruction that fails has been fetched, so the program counter is on the next one. All else is
as it was before, with one exception: a call into the reserved part of memory has already put its
return address on the call stack when its jump fails. In a session, nothing comes after such an
instruction, not even in its own turn.

* `State.FailsInto`, `State.failsInto_leftBy` : the state before a failing word and the one after;
* `Machine.fails_of_fault` : an instruction that fails, among the words that can;
* `Machine.BreaksOff`, `Machine.exists_breaksOff` : how a session ends with a fault;
* `Machine.aftermath_of_fault` : the result.
-/

namespace ChipEight

namespace State

/-- The word `w` has the state `t` come after `s` when it fails. -/
structure FailsInto (s : State) (w : Word) (t : State) : Prop where
  /-- The program counter is on the next instruction. -/
  pc : t.pc.toNat = (s.pc.toNat + 2) % 0x1000
  /-- A call into the reserved part of memory has put it into the first free slot, if there was
  one. -/
  called : w.family = 0x2 → w.nnn.toNat < 0x200 → s.stack.depth < 16 →
    t.stack.depth = s.stack.depth + 1 ∧
      t.stack.slots = s.stack.slots.set (CallStack.slot s.stack.depth) t.pc
  /-- In all other cases, the call stack is as it was. -/
  kept : ¬ (w.family = 0x2 ∧ w.nnn.toNat < 0x200 ∧ s.stack.depth < 16) → t.stack = s.stack
  /-- So is everything else. -/
  rest : t = { s with pc := t.pc, stack := t.stack }

variable {s : State} {w op : Word} {f : Fault}

/-- Only a call into the reserved part of memory can fail with a slot taken. -/
theorem Fails.nnn_lt (h : s.Fails w op f) (hw : w.family = 0x2) (hd : s.stack.depth < 16) :
    w.nnn.toNat < 0x200 := by
  cases h with
  | call _ _ ht => exact ht
  | overflow _ hfull => omega
  | unknown h =>
    have : w.IsInstruction := Word.isInstruction_iff.2 (.inl (by rw [hw]; decide))
    obtain ⟨e, he, hm⟩ := this
    exact absurd hm (h e he)
  | notImplemented h =>
    rw [Word.family_eq_zero_iff.2 h] at hw
    cases hw
  | underflow h =>
    rw [h] at hw
    exact absurd hw (by decide)
  | jump h | jumpOffset h =>
    rw [h] at hw
    cases hw

theorem failsInto_leftBy (h : s.Fails w op f) : s.FailsInto w (s.leftBy w) := by
  by_cases hw : w.family = 0x2
  · cases hp : s.stack.push? s.advance.pc with
    | none =>
      have hfull : s.stack.depth = 16 := CallStack.push?_eq_none_iff.1 hp
      rw [leftBy_of_none hw hp]
      exact ⟨toNat_advance_pc, fun _ _ hd => by omega, fun _ => rfl, rfl⟩
    | some stack =>
      obtain ⟨hd, hslots, hdepth⟩ := CallStack.push?_eq_some hp
      rw [leftBy_of_some hw hp]
      refine ⟨toNat_advance_pc, fun _ _ _ => ⟨hdepth, hslots⟩, fun hne => ?_, rfl⟩
      exact absurd ⟨hw, h.nnn_lt hw hd, hd⟩ hne
  · rw [leftBy_of_ne hw]
    exact ⟨toNat_advance_pc, fun h => absurd h hw, fun _ => rfl, rfl⟩

end State

namespace Machine

variable {m : Machine} {due : Nat → Nat} {buzzing : Bool} {k : Nat} {polls : List Poll} {f : Fault}

theorem fails_of_fault (h : m.step.fault = some f) :
    m.state.mode = .running ∧ m.state.Fails m.state.fetch m.state.fetch f := by
  cases hm : m.state.mode with
  | waiting x =>
    rw [step_of_waiting hm] at h
    cases h
  | running =>
    rw [step, Outcome.fault_map, State.step_of_running hm, Outcome.fault_after] at h
    exact ⟨rfl, State.fails_of_fault h⟩

theorem step_of_fails (hm : m.state.mode = .running)
    (h : m.state.Fails m.state.fetch m.state.fetch f) :
    m.step.fault = some f ∧ m.step.state = { m with state := m.state.leftBy m.state.fetch } := by
  rw [step, State.step_of_running hm, State.perform_of_fails h]
  exact ⟨rfl, rfl⟩

/-! ### In a session -/

variable (m buzzing) in
/-- A session of the machine `m` is broken off by the fault `f` in the turn of the round `r`, after
the turns of `before`: it leaves what the step of that turn has left, and the user notices nothing
of that turn. -/
structure BreaksOff (session : Playback) (before : List Round) (r : Round) (f : Fault) : Prop where
  /-- The instructions of all turns before have succeeded. -/
  succeeded : ∀ q ∈ before, q.fails = false
  /-- The last turn begins where these turns have led to. -/
  start : r.start = m.after (before.flatMap Round.operations)
  /-- Its step fails. -/
  fault : r.start.step.fault = some f
  /-- The machine is as that step has left it. -/
  state_eq : session.outcome.state = r.start.step.state
  /-- The contacts with the user are those of the turns before. -/
  hooks_eq : session.hooks = contactsOf buzzing before

theorem exists_breaksOff (h : (play due m buzzing k polls).outcome.fault = some f) :
    ∃ before r, m.rounds due k polls = before ++ [r] ∧
      m.BreaksOff buzzing (play due m buzzing k polls) before r f := by
  revert h
  refine play_induction (P := fun m buzzing played rounds => played.outcome.fault = some f →
    ∃ before r, rounds = before ++ [r] ∧ m.BreaksOff buzzing played before r f)
    (fun r buzzing h => ?_) fun r buzzing later rounds hf ih h => ?_
  · rw [turn_fault] at h
    have hfails : r.fails = true := Option.isSome_iff_exists.2 ⟨f, h⟩
    rw [turn_of_fails hfails]
    exact ⟨[], r, rfl, by simp, rfl, h, rfl, rfl⟩
  · obtain ⟨before, last, rfl, hbreaks⟩ := ih h
    refine ⟨r :: before, last, rfl, ?_, ?_, hbreaks.fault, hbreaks.state_eq, ?_⟩
    · exact List.forall_mem_cons.2 ⟨hf, hbreaks.succeeded⟩
    · rw [List.flatMap_cons, after_append, Round.after_operations hf]
      exact hbreaks.start
    · rw [contactsOf_of_not_fails hf, ← turn_buzzing hf, ← hbreaks.hooks_eq, ← turn_hooks hf]
      rfl

/-- A session whose first instruction fails is over in its first turn. -/
theorem run_of_fault {config : Config} {poll : Poll} (h : m.step.fault = some f) :
    m.rounds due 0 (poll :: polls) = [⟨m, poll, due 0⟩] ∧
      (m.run config due (poll :: polls)).outcome.fault = some f := by
  have hr : m.rounds due 0 (poll :: polls) = [⟨m, poll, due 0⟩] :=
    rounds_of_last (.inl (Option.isSome_iff_exists.2 ⟨f, h⟩))
  refine ⟨hr, ?_⟩
  change (play due m false 0 (poll :: polls)).outcome.fault = some f
  rw [play_fault, hr, List.findSome?_singleton]
  exact h

/-- **A failing instruction leaves the machine as it was**, but for the program counter and, if it
is a call into the reserved part of memory that finds a free slot, for that slot. What a check of a
key wait would remember is as it was, too. And in a session, it is the last thing that happens. -/
theorem aftermath_of_fault (m : Machine) :
    (∀ f, m.step.fault = some f →
      m.state.FailsInto m.state.fetch m.step.state.state ∧ m.step.state.checked = m.checked) ∧
    ∀ (config : Config) (due : Nat → Nat) (polls : List Poll) (f : Fault),
      (m.run config due polls).outcome.fault = some f →
        ∃ before r, m.rounds due 0 polls = before ++ [r] ∧
          m.BreaksOff false (m.run config due polls) before r f := by
  refine ⟨fun f h => ?_, fun config due polls f h => ?_⟩
  · obtain ⟨hm, hfails⟩ := fails_of_fault h
    rw [(step_of_fails hm hfails).2]
    exact ⟨State.failsInto_leftBy hfails, rfl⟩
  · obtain ⟨before, r, hr, hbreaks⟩ := exists_breaksOff h
    exact ⟨before, r, hr, hbreaks.succeeded, hbreaks.start, hbreaks.fault, hbreaks.state_eq,
      hbreaks.hooks_eq⟩

/-- The font read as a program: its word at address 5 is a call of address `0x060`. -/
theorem aftermath_of_fault_in_font :
    let m : Machine := { state := { State.initial (.ofList []) with pc := 5 }, checked := .empty }
    let session := m.run .standard (fun _ => 1) [⟨[.press 3], false⟩]
    m.step.fault = some (.invalidJumpTarget 0x060 0x005) ∧
      m.step.state.state.pc.toNat = 7 ∧ m.step.state.state.stack.depth = 1 ∧
      session.outcome.state = m.step.state ∧ session.hooks = [] := by
  intro m session
  have hfetch : m.state.fetch = 0x2060 := by
    change Word.ofBytes (Memory.initial.get 5) (Memory.initial.get 6) = 0x2060
    rw [Memory.get_initial, Memory.get_initial]
    rfl
  have hfails : m.state.Fails m.state.fetch m.state.fetch (.invalidJumpTarget 0x060 0x005) := by
    rw [hfetch]
    exact .call (by decide) (by decide) (by decide)
  have hfault := (step_of_fails (m := m) rfl hfails).1
  obtain ⟨hleaves, hsession⟩ := aftermath_of_fault m
  obtain ⟨hinto, -⟩ := hleaves _ hfault
  have hcalled := hinto.called (by rw [hfetch]; decide) (by rw [hfetch]; decide) (by decide)
  obtain ⟨hfirst, hend⟩ := run_of_fault hfault
  obtain ⟨before, r, hrounds, hbreaks⟩ := hsession _ _ _ _ hend
  -- the first turn is the last one
  obtain rfl : before = [] := by
    rw [hfirst] at hrounds
    simpa using congrArg List.length hrounds
  have hstart : r.start = m := hbreaks.start
  exact ⟨hfault, hinto.pc, hcalled.1, hstart ▸ hbreaks.state_eq, hbreaks.hooks_eq⟩

end Machine

end ChipEight
