import ChipEight.Execution
import ChipEight.Proofs.InstructionSet

/-!
# Drawing several sprites

A draw inverts the pixels that its sprite covers. Which these are depends on two registers, on the
index register and on memory, and a draw writes none of them, unless it reads a coordinate from
the flag register. So the pixels of several draws can be told before the first of them: after all
of them, the pixels that an odd number of them cover are inverted. This does not depend on their
order, and drawing all of them a second time undoes it.

* `Word.DrawsApart` : a draw that takes neither coordinate from the flag register;
* `State.performAll` : words executed one after the other;
* `State.cover`, `State.coverAll` : the pixels that a draw inverts, and those that several invert;
* `State.drawn`, `State.performAll_eq_drawn` : what draws leave;
* `State.draws_of_perm` : the same draws in another order, and a second time.
-/

namespace ChipEight

namespace Word

variable {w : Word}

/-- Whether a word is a draw that takes neither coordinate from the flag register. -/
def DrawsApart (w : Word) : Prop :=
  w.family = 0xD ∧ w.x ≠ flagRegister ∧ w.y ≠ flagRegister

instance (w : Word) : Decidable w.DrawsApart :=
  inferInstanceAs (Decidable (w.family = 0xD ∧ w.x ≠ flagRegister ∧ w.y ≠ flagRegister))

/-- The program counter `n` instructions further on, round the end of memory. -/
def past (pc : Word) : Nat → Word
  | 0 => pc
  | n + 1 => past ((pc + 2).address.setWidth 16) n

theorem past_add (pc : Word) (n k : Nat) : pc.past (n + k) = (pc.past n).past k := by
  induction n generalizing pc with
  | zero => rw [Nat.zero_add, past]
  | succ n ih => rw [Nat.succ_add, past, ih, past]

end Word

namespace State

variable (s : State)

/-- The words executed one after the other, as long as none of them fails. -/
def performAll : State → List Word → Outcome State
  | s, [] => .done s
  | s, w :: ws => (s.perform w w).andThen fun t => performAll t ws

/-- The pixels of row `y` that a draw inverts. -/
def cover (w : Word) (y : BitVec 5) : Row :=
  Sprite.cover ((s.registers.get w.x).setWidth 6) ((s.registers.get w.y).setWidth 5)
    (s.sprite w.n) y

/-- The pixels of row `y` that several draws invert. -/
def coverAll : List Word → BitVec 5 → Row
  | [], _ => 0
  | w :: ws, y => s.cover w y ^^^ coverAll ws y

/-- The state `n` instructions further on, with another flag and with pixels inverted. -/
def drawn (n : Nat) (flag : Byte) (cover : BitVec 5 → Row) : State :=
  { s with
    pc := s.pc.past n
    registers := s.registers.set flagRegister flag
    frame := Bank.ofFn fun y => s.frame.get y ^^^ cover y }

variable {s} {w : Word} {ws ws' : List Word}

/-! ### The pixels of several draws -/

theorem coverAll_append (y : BitVec 5) :
    s.coverAll (ws ++ ws') y = s.coverAll ws y ^^^ s.coverAll ws' y := by
  induction ws with
  | nil => exact BitVec.zero_xor.symm
  | cons w ws ih => rw [List.cons_append, coverAll, coverAll, ih, BitVec.xor_assoc]

theorem coverAll_perm (h : ws.Perm ws') : s.coverAll ws = s.coverAll ws' := by
  funext y
  induction h with
  | nil => rfl
  | cons w _ ih => rw [coverAll, coverAll, ih]
  | swap v w ws =>
    simp only [coverAll]
    rw [← BitVec.xor_assoc, ← BitVec.xor_assoc, BitVec.xor_comm (s.cover w y)]
  | trans _ _ ih ih' => rw [ih, ih']

/-- Pixels that the same draws invert twice stay as they are. -/
theorem coverAll_append_perm (h : ws.Perm ws') : s.coverAll (ws ++ ws') = fun _ => 0 := by
  funext y
  rw [coverAll_append, coverAll_perm h]
  exact BitVec.xor_self

/-! ### What draws leave -/

variable {n k : Nat} {flag flag' : Byte} {cover cover' : BitVec 5 → Row}

/-- A draw does not disturb the next one. -/
theorem cover_drawn (h : w.DrawsApart) : (s.drawn n flag cover).cover w = s.cover w := by
  obtain ⟨-, hx, hy⟩ := h
  have hgetx : (s.drawn n flag cover).registers.get w.x = s.registers.get w.x :=
    Bank.get_set_of_ne _ _ hx.symm
  have hgety : (s.drawn n flag cover).registers.get w.y = s.registers.get w.y :=
    Bank.get_set_of_ne _ _ hy.symm
  funext y
  rw [State.cover, hgetx, hgety]
  rfl

theorem coverAll_drawn (h : ∀ w ∈ ws, w.DrawsApart) :
    (s.drawn n flag cover).coverAll ws = s.coverAll ws := by
  funext y
  induction ws with
  | nil => rfl
  | cons w ws ih =>
    obtain ⟨hw, hws⟩ := List.forall_mem_cons.1 h
    rw [coverAll, coverAll, cover_drawn hw, ih hws]

theorem drawn_blank :
    s.drawn n flag (fun _ => 0) =
      { s with pc := s.pc.past n, registers := s.registers.set flagRegister flag } := by
  have hframe : (Bank.ofFn fun y => s.frame.get y ^^^ 0) = s.frame := by
    ext y : 1
    rw [Bank.get_ofFn]
    exact BitVec.xor_zero
  rw [drawn, hframe]

theorem drawn_drawn :
    (s.drawn n flag cover).drawn k flag' cover' =
      s.drawn (n + k) flag' fun y => cover y ^^^ cover' y := by
  have hframe : (Bank.ofFn fun y => (s.drawn n flag cover).frame.get y ^^^ cover' y) =
      Bank.ofFn fun y => s.frame.get y ^^^ (cover y ^^^ cover' y) := by
    ext y : 1
    rw [Bank.get_ofFn, Bank.get_ofFn, drawn, Bank.get_ofFn, BitVec.xor_assoc]
  rw [drawn, hframe, drawn, drawn, Word.past_add, Bank.set_set]

theorem setRegister_drawn :
    (s.drawn n flag cover).setRegister flagRegister flag' = s.drawn n flag' cover := by
  rw [drawn, setRegister, Bank.set_set]
  rfl

theorem perform_of_drawsApart (h : w.DrawsApart) :
    ∃ flag, s.perform w w = .done (s.drawn 1 flag (s.cover w)) := by
  rw [perform, Instruction.decode_of_draw h.1]
  exact ⟨_, rfl⟩

/-- Draws that take no coordinate from the flag register all succeed, and invert the pixels that
an odd number of them cover. -/
theorem performAll_eq_drawn (h : ∀ w ∈ ws, w.DrawsApart) :
    ∃ flag, s.performAll ws = .done (s.drawn ws.length flag (s.coverAll ws)) := by
  induction ws generalizing s with
  | nil =>
    refine ⟨s.registers.get flagRegister, ?_⟩
    change Outcome.done s = .done (s.drawn 0 _ fun _ => 0)
    rw [drawn_blank, Bank.set_get]
    rfl
  | cons w ws ih =>
    obtain ⟨hw, hws⟩ := List.forall_mem_cons.1 h
    obtain ⟨first, hfirst⟩ := perform_of_drawsApart hw (s := s)
    obtain ⟨flag, hrest⟩ := ih hws (s := s.drawn 1 first (s.cover w))
    refine ⟨flag, ?_⟩
    -- the pixels of the later draws are told after the first one, but that is the same
    rw [performAll, hfirst]
    change ((s.drawn 1 first (s.cover w)).performAll ws).after [] = _
    rw [hrest, coverAll_drawn hws, drawn_drawn, Nat.add_comm]
    rfl

/-- **The order of draws shows in the flag register only, and drawing twice draws nothing.** Draws
that take no coordinate from the flag register all succeed, in any order. Two orders leave states
that agree in everything but that register; and when the draws have come a second time, in the same
order or in another, the frame is as it was before the first time, and so is everything else but the
program counter and that register. -/
theorem draws_of_perm (s : State) {ws ws' : List Word} (h : ∀ w ∈ ws, w.DrawsApart)
    (hp : ws.Perm ws') :
    s.performAll ws = .done (s.performAll ws).state ∧
      (∃ flag, s.performAll ws' =
        .done ((s.performAll ws).state.setRegister flagRegister flag)) ∧
      ∃ flag, s.performAll (ws ++ ws') =
        .done { s with
          pc := s.pc.past (2 * ws.length)
          registers := s.registers.set flagRegister flag } := by
  have h' : ∀ w ∈ ws', w.DrawsApart := fun w hw => h w (hp.mem_iff.2 hw)
  obtain ⟨flag, hws⟩ := performAll_eq_drawn h (s := s)
  obtain ⟨flag', hws'⟩ := performAll_eq_drawn h' (s := s)
  have hboth : ∀ w ∈ ws ++ ws', w.DrawsApart := by simpa [or_imp, forall_and] using ⟨h, h'⟩
  obtain ⟨last, htwice⟩ := performAll_eq_drawn hboth (s := s)
  refine ⟨by rw [hws]; rfl, ⟨flag', ?_⟩, last, ?_⟩
  · rw [hws, Outcome.state_done, setRegister_drawn, hws', coverAll_perm hp, hp.length_eq]
  · rw [htwice, coverAll_append_perm hp, drawn_blank, List.length_append, ← hp.length_eq,
      Nat.two_mul]

/-- Three sprites over each other, two of which go round the display, in two orders. -/
theorem draws_of_perm_overlapping :
    let s : State := { State.initial (.ofList []) with
      registers := Bank.ofFn fun r => BitVec.ofNat 8 (31 * r.toNat)
      frame := Bank.replicate 0xA5 }
    let ws : List Word := [0xD125, 0xD217, 0xD005]
    let ws' : List Word := [0xD005, 0xD125, 0xD217]
    (∀ w ∈ ws, w.DrawsApart) ∧ ws.Perm ws' ∧
      (∃ flag, s.performAll ws' =
        .done ((s.performAll ws).state.setRegister flagRegister flag)) ∧
      (s.performAll (ws ++ ws')).state.frame = s.frame ∧
      (s.performAll (ws ++ ws')).state.pc = 0x20C := by
  intro s ws ws'
  have h : ∀ w ∈ ws, w.DrawsApart := by
    rw [List.forall_mem_cons, List.forall_mem_cons, List.forall_mem_singleton]
    decide
  have hp : ws.Perm ws' := by decide
  obtain ⟨-, horder, flag, htwice⟩ := draws_of_perm s h hp
  have hpc : s.pc.past 6 = 0x20C := by decide
  exact ⟨h, hp, horder, congrArg (·.state.frame) htwice, hpc ▸ congrArg (·.state.pc) htwice⟩

end State

end ChipEight
