import ChipEight.Proofs.Faults
import ChipEight.Proofs.History
import Mathlib.Data.List.Chain

/-!
# Calls and returns

Seen from outside, the call stack is a list of at most sixteen return addresses: a call appends to
it, a return takes its last entry off, and no other instruction touches it. The slots that returns
leave behind do not show. So what a call has found on the list stays there as long as the list is
longer than it was then, and the return that makes it as long again goes back behind the call,
whatever has been called and returned from in between.

* `State.StackLaw`, `State.stackLaw_perform` : what an executed word does to the list;
* `State.Follows` : the three ways in which the list goes on from one state to the next;
* `State.Follows.isPrefix`, `State.Follows.eq_of_returned` : what is below the depth of a call is
  kept, and found again by the return;
* `State.Executes` : one state after another by an instruction that succeeds;
* `Machine.states` : the states that a machine goes through;
* `Machine.calls_match_returns` : the law, for all words and for all histories.
-/

namespace ChipEight

namespace State

/-- What executing the word `w` does to the list of return addresses, if `o` is the outcome. -/
structure StackLaw (s : State) (w : Word) (o : Outcome State) : Prop where
  /-- A call appends the place after it, and then jumps, or fails to. -/
  calls : w.family = 0x2 → s.stack.entries.length < 16 →
    o.state.stack.entries = s.stack.entries ++ [s.advance.pc] ∧
      if 0x200 ≤ w.nnn.toNat then o.fault = none ∧ o.state.pc = w.nnn.setWidth 16
      else o.fault = some (.invalidJumpTarget (w.nnn.setWidth 16) s.pc.address)
  /-- A call that finds the list full fails, whatever its target, and leaves the list alone. -/
  overflows : w.family = 0x2 → s.stack.entries.length = 16 →
    o.fault = some (.stackOverflow s.pc.address) ∧ o.state.stack.entries = s.stack.entries
  /-- A return takes the last entry off and goes on there. -/
  returns : ∀ entries pc, w = 0x00EE → s.stack.entries = entries ++ [pc] →
    o.fault = none ∧ o.state.pc = pc ∧ o.state.stack.entries = entries
  /-- A return that finds the list empty fails. -/
  underflows : w = 0x00EE → s.stack.entries = [] →
    o.fault = some (.stackUnderflow s.pc.address) ∧ o.state.stack.entries = []
  /-- Any other word leaves the list alone. -/
  keeps : w.family ≠ 0x2 → w ≠ 0x00EE → o.state.stack.entries = s.stack.entries

variable {s t : State} {w op : Word}

/-! ### One word -/

theorem jump_stack (s : State) (target : Word) : (s.jump target).state.stack = s.stack := by
  cases h : isProgramAddress target with
  | true => rw [jump_of_isProgramAddress h]; rfl
  | false => rw [jump_of_not_isProgramAddress h]; rfl

theorem perform_stack (hc : w.family ≠ 0x2) (hr : w ≠ 0x00EE) :
    (s.perform w op).state.stack = s.stack := by
  rw [perform]
  cases hi : Instruction.decode w with
  | ret => exact absurd (Instruction.ret_of_decode hi) hr
  | call nnn => exact absurd (Instruction.call_of_decode hi).1 hc
  | jump nnn => exact jump_stack s.advance _
  | jumpOffset nnn => exact jump_stack s.advance _
  | skip c =>
    rw [Instruction.execute]
    split
    · rfl
    · rfl
  | _ => exact (Instruction.execute_of_not_isTransfer op s.advance rfl).2

theorem perform_call_of_some (h : w.family = 0x2) {stack : CallStack}
    (hp : s.stack.push? s.advance.pc = some stack) :
    s.perform w op = ({ s.advance with stack := stack } : State).jump (w.nnn.setWidth 16) := by
  rw [perform, Instruction.decode_of_call h]
  exact Instruction.execute_call_of_some op hp

theorem perform_ret_of_some {pc : Word} {stack : CallStack}
    (hp : s.stack.pop? = some (pc, stack)) :
    s.perform 0x00EE op = .done { s.advance with pc := pc, stack := stack } := by
  rw [perform, Instruction.decode_ret]
  exact pop_of_some (s := s.advance) hp

/-- Every word keeps to the law. -/
theorem stackLaw_perform (s : State) (w op : Word) : s.StackLaw w (s.perform w op) where
  calls h hd := by
    obtain ⟨stack, hp, he⟩ := CallStack.exists_push? hd s.advance.pc
    have ho : s.perform w op = _ := perform_call_of_some h hp
    refine ⟨?_, ?_⟩
    · rw [ho, jump_stack]
      exact he
    · split
      · rename_i ht
        rw [ho, jump_of_isProgramAddress (isProgramAddress_address_iff.2 ht)]
        exact ⟨rfl, rfl⟩
      · rename_i ht
        rw [CallStack.length_entries] at hd
        exact fault_of_fails (.call h hd (by omega))
  overflows h hd := by
    rw [CallStack.length_entries] at hd
    have hp : s.advance.stack.push? s.advance.pc = none := CallStack.push?_eq_none_iff.2 hd
    refine ⟨fault_of_fails (.overflow h hd), ?_⟩
    rw [perform, Instruction.decode_of_call h, Instruction.execute_call_of_none op hp]
    rfl
  returns entries pc h he := by
    obtain ⟨stack, hp, hs⟩ := CallStack.exists_pop? he
    rw [h, perform_ret_of_some hp]
    exact ⟨rfl, rfl, hs⟩
  underflows h he := by
    have hd : s.stack.depth = 0 := by rw [← CallStack.length_entries, he, List.length_nil]
    have hp : s.advance.stack.pop? = none := CallStack.pop?_eq_none_iff.2 hd
    refine ⟨fault_of_fails (.underflow h hd), ?_⟩
    rw [h, perform, Instruction.decode_ret, Instruction.execute, pop_of_none hp]
    exact he
  keeps hc hr := by rw [perform_stack hc hr]

theorem entries_of_call (hw : w.family = 0x2) (hf : (s.perform w op).fault = none) :
    (s.perform w op).state.stack.entries = s.stack.entries ++ [s.advance.pc] := by
  have h := s.stackLaw_perform w op
  have hd : s.stack.entries.length ≤ 16 := s.stack.length_entries ▸ s.stack.depth_le
  rcases Nat.lt_or_eq_of_le hd with hd | hd
  · exact (h.calls hw hd).1
  · rw [(h.overflows hw hd).1] at hf
    cases hf

/-! ### From one state to the next -/

/-- How the list of return addresses may go on from one state to the next. -/
inductive Follows (s t : State) : Prop
  /-- An entry is appended. -/
  | called {pc : Word} (h : t.stack.entries = s.stack.entries ++ [pc])
  /-- The last entry is taken off, and the program counter is there. -/
  | returned (h : s.stack.entries = t.stack.entries ++ [t.pc])
  /-- Nothing happens. -/
  | kept (h : t.stack.entries = s.stack.entries)

/-- An instruction that succeeds lets the list go on in one of the three ways. -/
theorem follows_perform (hf : (s.perform w op).fault = none) :
    s.Follows (s.perform w op).state := by
  have h := s.stackLaw_perform w op
  by_cases hc : w.family = 0x2
  · exact .called (entries_of_call hc hf)
  · by_cases hr : w = 0x00EE
    · rcases List.eq_nil_or_concat' s.stack.entries with he | ⟨entries, pc, he⟩
      · rw [(h.underflows hr he).1] at hf
        cases hf
      · obtain ⟨-, hpc, hs⟩ := h.returns entries pc hr he
        exact .returned (by rw [hs, hpc, he])
    · exact .kept (h.keeps hc hr)

namespace Follows

variable {base : List Word} {pc : Word}

/-- What the list begins with stays, unless the list becomes too short for it. -/
theorem isPrefix (h : s.Follows t) (hs : base <+: s.stack.entries)
    (hd : base.length ≤ t.stack.entries.length) : base <+: t.stack.entries := by
  cases h with
  | called he => exact he ▸ hs.trans (List.prefix_append _ _)
  | returned he =>
    have ht : t.stack.entries <+: s.stack.entries := he ▸ List.prefix_append _ _
    exact List.prefix_of_prefix_length_le hs ht hd
  | kept he => exact he ▸ hs

/-- What makes the list one entry too short is the return to that entry. -/
theorem eq_of_returned (h : s.Follows t) (hs : base ++ [pc] <+: s.stack.entries)
    (hd : t.stack.entries.length = base.length) : t.stack.entries = base ∧ t.pc = pc := by
  have hlen : base.length + 1 ≤ s.stack.entries.length := by simpa using hs.length_le
  cases h with
  | called he =>
    rw [he, List.length_append] at hd
    omega
  | returned he =>
    have heq : base ++ [pc] = s.stack.entries :=
      hs.eq_of_length (by rw [he, List.length_append, List.length_append, hd]; rfl)
    obtain ⟨hb, hpc⟩ := List.append_singleton_inj.1 (heq.trans he)
    exact ⟨hb.symm, hpc.symm⟩
  | kept he =>
    rw [he] at hd
    omega

/-- As long as the list is longer than `base`, it goes on with `base` and `pc`; and then the
program counter is at `pc`. -/
theorem eq_of_isChain {trail : List State} (hs : base ++ [pc] <+: s.stack.entries)
    (hchain : List.IsChain Follows (s :: (trail ++ [t])))
    (hdeep : ∀ u ∈ trail, base.length < u.stack.entries.length)
    (hd : t.stack.entries.length = base.length) : t.stack.entries = base ∧ t.pc = pc := by
  induction trail generalizing s with
  | nil => exact eq_of_returned (List.isChain_cons_cons.1 hchain).1 hs hd
  | cons u trail ih =>
    obtain ⟨hu, hrest⟩ := List.isChain_cons_cons.1 hchain
    have hlen : (base ++ [pc]).length ≤ u.stack.entries.length := by
      rw [List.length_append]
      exact hdeep u List.mem_cons_self
    exact ih (hu.isPrefix hs hlen) hrest fun v hv => hdeep v (List.mem_cons_of_mem u hv)

end Follows

/-- The state `t` comes after `s` by an instruction that succeeds. -/
def Executes (s t : State) : Prop :=
  ∃ w op, (s.perform w op).fault = none ∧ (s.perform w op).state = t

theorem Executes.follows (h : s.Executes t) : s.Follows t := by
  obtain ⟨w, op, hf, rfl⟩ := h
  exact follows_perform hf

end State

namespace Machine

variable {m : Machine} {ops : List Operation}

/-! ### Histories -/

theorem step_eq_perform (hm : m.state.mode = .running) :
    m.step.fault = (m.state.perform m.state.fetch m.state.fetch).fault ∧
      m.step.state.state = (m.state.perform m.state.fetch m.state.fetch).state := by
  rw [step, Outcome.fault_map, Outcome.state_map, State.step_of_running hm]
  exact ⟨rfl, rfl⟩

/-- An operation that does not fail lets the list go on in one of the three ways. -/
theorem follows_of_executed {op : Operation} (hf : ∀ f ∈ m.executed op, f = none) :
    m.state.Follows (m.perform op).state.state := by
  rcases executed_cases m op with ⟨rfl, hm, he⟩ | ⟨-, -, hs⟩
  · obtain ⟨hfault, hstate⟩ := step_eq_perform hm
    have hstep : m.step.fault = none := hf m.step.fault (by simp [he])
    rw [perform, hstate]
    exact State.follows_perform (hfault.symm.trans hstep)
  · exact .kept (by rw [hs])

/-- The states that the operations lead to, one after the other. -/
def states (m : Machine) (ops : List Operation) : List State :=
  m.along (fun m op => [(m.perform op).state.state]) ops

theorem states_concat {op : Operation} :
    m.states (ops ++ [op]) = m.states ops ++ [(m.after (ops ++ [op])).state] := by
  rw [states, along_append, after_concat]
  rfl

theorem isChain_states (hok : ∀ f ∈ m.executions ops, f = none) :
    List.IsChain State.Follows (m.state :: m.states ops) := by
  induction ops generalizing m with
  | nil => exact List.isChain_singleton m.state
  | cons op ops ih =>
    rw [executions_cons, List.forall_mem_append] at hok
    exact List.isChain_cons_cons.2 ⟨follows_of_executed hok.1, ih hok.2⟩

/-- **A return goes back behind the call that it belongs to.** The call stack is a list of at most
sixteen return addresses, to which every executed word does what the law says. So if a call and
the instructions after it succeed and the list is longer than before the call until the last of
them, which makes it as long again, then that one has gone back behind the call and has left the
list as it was. The same holds of a machine, whatever else is done to it in the meantime. -/
theorem calls_match_returns :
    (∀ (s : State) (w op : Word),
      s.stack.entries.length ≤ 16 ∧ s.advance.pc.toNat = (s.pc.toNat + 2) % 0x1000 ∧
        s.StackLaw w (s.perform w op)) ∧
    (∀ (s t : State) (w op : Word) (trail : List State),
      w.family = 0x2 → (s.perform w op).fault = none →
      List.IsChain State.Executes ((s.perform w op).state :: (trail ++ [t])) →
      (∀ u ∈ trail, s.stack.entries.length < u.stack.entries.length) →
      t.stack.entries.length = s.stack.entries.length →
      t.pc.toNat = (s.pc.toNat + 2) % 0x1000 ∧ t.stack.entries = s.stack.entries) ∧
    ∀ (m : Machine) (ops : List Operation),
      m.state.mode = .running → m.state.fetch.family = 0x2 →
      (∀ f ∈ m.executions (.step :: ops), f = none) →
      (∀ u ∈ (m.step.state.states ops).dropLast,
        m.state.stack.entries.length < u.stack.entries.length) →
      (m.after (.step :: ops)).state.stack.entries.length = m.state.stack.entries.length →
      (m.after (.step :: ops)).state.pc.toNat = (m.state.pc.toNat + 2) % 0x1000 ∧
        (m.after (.step :: ops)).state.stack.entries = m.state.stack.entries := by
  refine ⟨fun s w op => ⟨?_, State.toNat_advance_pc, s.stackLaw_perform w op⟩, ?_, ?_⟩
  · exact s.stack.length_entries ▸ s.stack.depth_le
  · intro s t w op trail hw hf hchain hdeep hd
    have hcalled := State.entries_of_call hw hf
    have hprefix : s.stack.entries ++ [s.advance.pc] <+: (s.perform w op).state.stack.entries :=
      hcalled ▸ List.prefix_rfl
    have hfollows := hchain.imp fun u v h => State.Executes.follows h
    obtain ⟨he, hpc⟩ := State.Follows.eq_of_isChain hprefix hfollows hdeep hd
    exact ⟨by rw [hpc, State.toNat_advance_pc], he⟩
  · intro m ops hm hw hok hdeep hd
    rw [executions_cons, List.forall_mem_append] at hok
    obtain ⟨hfault, hstate⟩ := step_eq_perform hm
    have hf : m.step.fault = none := hok.1 m.step.fault (by simp [executed, wordOf?, hm, perform])
    have hcalled := State.entries_of_call hw (hfault.symm.trans hf)
    rw [← hstate] at hcalled
    rcases List.eq_nil_or_concat' ops with rfl | ⟨body, op, rfl⟩
    · -- the call alone cannot have made the list as long as it was before
      have hd : m.step.state.state.stack.entries.length = m.state.stack.entries.length := hd
      rw [hcalled, List.length_append, List.length_singleton] at hd
      omega
    · have hchain := isChain_states hok.2
      rw [states_concat] at hchain hdeep
      rw [List.dropLast_concat] at hdeep
      have hprefix : m.state.stack.entries ++ [m.state.advance.pc] <+:
          m.step.state.state.stack.entries := hcalled ▸ List.prefix_rfl
      obtain ⟨he, hpc⟩ := State.Follows.eq_of_isChain hprefix hchain hdeep hd
      exact ⟨by rw [after_cons, hpc, State.toNat_advance_pc], he⟩

/-- A call from the start of the program, a call in what it calls, and the two returns. -/
theorem calls_match_returns_nested :
    let s := State.initial (.ofList [])
    let called := (s.perform 0x2300 0x2300).state
    let nested := (called.perform 0x2400 0x2400).state
    let inner := (nested.perform 0x00EE 0x00EE).state
    let outer := (inner.perform 0x00EE 0x00EE).state
    inner.pc = 0x302 ∧ outer.pc.toNat = 0x202 ∧ outer.stack.entries = [] := by
  intro s called nested inner outer
  have hcall : called.Executes nested := ⟨0x2400, 0x2400, by decide, rfl⟩
  have hinner : nested.Executes inner := ⟨0x00EE, 0x00EE, by decide, rfl⟩
  have houter : inner.Executes outer := ⟨0x00EE, 0x00EE, by decide, rfl⟩
  have hchain : List.IsChain State.Executes (called :: ([nested, inner] ++ [outer])) := by
    simp [hcall, hinner, houter]
  have hdeep : ∀ u ∈ [nested, inner], s.stack.entries.length < u.stack.entries.length := by
    decide
  refine ⟨by decide, ?_⟩
  exact calls_match_returns.2.1 s outer 0x2300 0x2300 [nested, inner] (by decide) (by decide) hchain
    hdeep (by decide)

end Machine

end ChipEight
