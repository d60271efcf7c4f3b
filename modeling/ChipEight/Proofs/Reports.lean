import ChipEight.Proofs.Decimal
import ChipEight.Proofs.Faults
import ChipEight.Proofs.KeyWait
import ChipEight.Proofs.Messages

/-!
# What the machine reports

A step of the processor reports the instruction first, with the registers as they are before it is
executed. Only three instructions report more. The two that store bytes report those that are
dropped, in the order in which they would have been stored, each with its value, its place and the
address of the instruction; the one that starts a key wait names the register. All of this can be
told from the word, the registers, the index register and the program counter. What memory holds
does not matter, so whether a byte is stored is not a matter of what was at its place before: a
byte is reported just if it is not stored. What the reports show are the numbers themselves, in
hexadecimal.

* `Word.storeCount`, `State.byteToStore`, `State.placeToStore` : the bytes that a word is to store;
* `State.warnings`, `Word.waitReports` : what it reports;
* `Instruction.stores_decode`, `State.log_perform` : that it stores and reports these;
* `State.stores_iff`, `State.warning_mem_warnings` : storing and reporting exclude each other;
* `Machine.LogLaw`, `Machine.log_exact` : the law of reports, and that it holds.
-/

namespace ChipEight

namespace Word

variable (w : Word)

/-- How many bytes a word is to store: the three digits of a register, or registers 0 to `x`. -/
def storeCount : Nat :=
  if w.family = 0xF ∧ w.kk = 0x33 then 3
  else if w.family = 0xF ∧ w.kk = 0x55 then w.x.toNat + 1
  else 0

/-- What a word reports of key waits, the register if it starts one. -/
def waitReports : List Event :=
  if w.family = 0xF ∧ w.kk = 0x0A then [.awaitingKey w.x] else []

theorem storeCount_le : w.storeCount ≤ 16 := by
  have hx : w.x.toNat < 16 := w.x.isLt
  unfold storeCount
  split
  · decide
  · split
    · omega
    · decide

end Word

namespace State

variable (s : State) (w : Word) (j : Nat)

/-- Byte number `j` of those that a word is to store. -/
def byteToStore : Byte :=
  if w.kk = 0x33 then BitVec.ofNat 8 ((s.registers.get w.x).digit j)
  else s.registers.get (BitVec.ofNat 4 j)

/-- The place for byte number `j`. -/
def placeToStore : Address := BitVec.ofNat 12 (s.index.toNat + j)

/-- The place for byte number `j` is reserved. -/
def Drops : Prop := (s.index.toNat + j) % 0x1000 < 0x200

instance : DecidablePred s.Drops := fun j =>
  inferInstanceAs (Decidable ((s.index.toNat + j) % 0x1000 < 0x200))

/-- The report that byte number `j` is dropped. -/
def warning : Event := .droppedStore (s.byteToStore w j) (s.placeToStore j) s.pc.address

/-- The reports of the bytes that a word does not store, in the order of their numbers. -/
def warnings : List Event := ((List.range w.storeCount).filter s.Drops).map (s.warning w)

/-- Byte number `j` is stored, whatever memory holds before. -/
def Stores : Prop :=
  ∀ memory op, ({ s with memory := memory }.perform w op).state.memory.get (s.placeToStore j) =
    s.byteToStore w j

end State

/-! ### The bytes that a word stores -/

theorem Memory.cells_map_range (index : Word) (f : Nat → Byte) (n : Nat) :
    cells index.address ((List.range n).map f) =
      (List.range n).map fun j => (BitVec.ofNat 12 (index.toNat + j), f j) := by
  induction n with
  | zero => rfl
  | succ n ih =>
    rw [List.range_succ, List.map_append, List.map_append, List.map_singleton, List.map_singleton,
      cells_concat, ih, List.length_map, List.length_range, Word.address_add_ofNat]

namespace Instruction

variable {w : Word}

theorem decode_storeDecimal (hf : w.family = 0xF) (hk : w.kk = 0x33) :
    decode w = .storeDecimal w.x := by
  rw [decode_of_transfer hf, decodeTransfer, hk]
  rfl

theorem decode_storeRegisters (hf : w.family = 0xF) (hk : w.kk = 0x55) :
    decode w = .storeRegisters w.x := by
  rw [decode_of_transfer hf, decodeTransfer, hk]
  rfl

/-- A word stores its bytes from the index register on. -/
theorem stores_decode (s : State) (w : Word) :
    (decode w).stores s =
      Memory.cells s.index.address ((List.range w.storeCount).map (s.byteToStore w)) := by
  by_cases hd : w.family = 0xF ∧ w.kk = 0x33
  · have hbytes : s.byteToStore w = fun j => BitVec.ofNat 8 ((s.registers.get w.x).digit j) := by
      funext j
      exact if_pos hd.2
    rw [decode_storeDecimal hd.1 hd.2, Word.storeCount, if_pos hd, hbytes,
      ← Byte.decimalDigits_eq]
    rfl
  by_cases hr : w.family = 0xF ∧ w.kk = 0x55
  · have hbytes : s.byteToStore w = fun j => s.registers.get (BitVec.ofNat 4 j) := by
      funext j
      exact if_neg (by rw [hr.2]; decide)
    rw [decode_storeRegisters hr.1 hr.2, Word.storeCount, if_neg hd, if_pos hr, hbytes,
      ← Bank.take_toList _ w.x.isLt]
    rfl
  · rw [Word.storeCount, if_neg hd, if_neg hr]
    cases h : decode w with
    | storeDecimal x =>
      obtain ⟨hf, -, hk⟩ := fields_of_decode h rfl
      exact absurd ⟨hf, hk⟩ hd
    | storeRegisters x =>
      obtain ⟨hf, -, hk⟩ := fields_of_decode h rfl
      exact absurd ⟨hf, hk⟩ hr
    | _ => rfl

theorem waitReports_decode (w : Word) : (decode w).waitReports = w.waitReports := by
  by_cases hk : w.family = 0xF ∧ w.kk = 0x0A
  · rw [decode_awaitKey hk.1 hk.2, Word.waitReports, if_pos hk]
    rfl
  · rw [Word.waitReports, if_neg hk]
    cases h : decode w with
    | awaitKey x =>
      obtain ⟨hf, -, hcode⟩ := fields_of_decode h rfl
      exact absurd ⟨hf, hcode⟩ hk
    | _ => rfl

end Instruction

namespace State

variable {s : State} {w op : Word} {j : Nat}

theorem toNat_placeToStore (s : State) (j : Nat) :
    (s.placeToStore j).toNat = (s.index.toNat + j) % 0x1000 :=
  BitVec.toNat_ofNat ..

/-- Whatever memory holds, a byte is stored at its place, if that is not reserved. -/
theorem get_perform_placeToStore (memory : Memory) (h : j < w.storeCount) :
    ({ s with memory := memory }.perform w op).state.memory.get (s.placeToStore j) =
      if s.Drops j then memory.get (s.placeToStore j) else s.byteToStore w j := by
  have hlength : ((List.range w.storeCount).map (s.byteToStore w)).length ≤ 0x1000 := by
    rw [List.length_map, List.length_range]
    exact Nat.le_trans w.storeCount_le (by decide)
  have hbyte :
      ((List.range w.storeCount).map (s.byteToStore w))[j]? = some (s.byteToStore w j) := by
    rw [List.getElem?_map, List.getElem?_range h]
    rfl
  rw [perform, Instruction.execute_memory, Instruction.stores_decode]
  refine (Memory.get_storeAll_cells_of_eq memory hlength hbyte (s.toNat_placeToStore j)).trans ?_
  rw [toNat_placeToStore]
  by_cases hr : s.Drops j
  · rw [if_neg (Nat.not_le.2 hr), if_pos hr]
  · rw [if_pos (Nat.not_lt.1 hr), if_neg hr]

/-- A byte is stored just if its place is not reserved. -/
theorem stores_iff (h : j < w.storeCount) : s.Stores w j ↔ ¬ s.Drops j := by
  constructor
  · intro hs hr
    -- a memory that holds another byte at the place keeps it
    have hstored := hs (Bank.replicate (s.byteToStore w j + 1)) w
    rw [get_perform_placeToStore _ h, if_pos hr, Bank.get_replicate] at hstored
    bv_omega
  · intro hr memory op
    rw [get_perform_placeToStore memory h, if_neg hr]

/-! ### What a word reports -/

theorem dropReport?_advance (s : State) (j : Nat) (v : Byte) :
    s.advance.dropReport? (s.placeToStore j, v) =
      if s.Drops j then some (.droppedStore v (s.placeToStore j) s.pc.address) else none := by
  rw [dropReport?, site_advance]
  by_cases hr : s.Drops j
  · rw [if_pos hr, if_pos (Memory.isReserved_iff.2 (by rwa [toNat_placeToStore]))]
  · rw [if_neg hr, if_neg]
    rwa [Memory.isReserved_iff, toNat_placeToStore]

/-- A word reports the bytes that it does not store, and then the key wait that it starts. -/
theorem log_perform (s : State) (w op : Word) :
    (s.perform w op).log = s.warnings w ++ w.waitReports := by
  have hwarnings : ((Instruction.decode w).stores s.advance).filterMap s.advance.dropReport? =
      s.warnings w := by
    rw [Instruction.stores_decode, Memory.cells_map_range, List.filterMap_map, warnings,
      ← List.filterMap_eq_map, List.filterMap_filter]
    refine congrArg (List.filterMap · _) (funext fun j => ?_)
    simp only [decide_eq_true_eq]
    exact s.dropReport?_advance j _
  rw [perform, Instruction.log_execute, hwarnings, Instruction.waitReports_decode]

/-- Behind the end of memory, places are reserved again. -/
example :
    ({ initial (.ofList []) with index := 0xFFF }.perform 0xF255 0xF255).log =
      [.droppedStore 0 0x000 0x200, .droppedStore 0 0x001 0x200] := by
  decide

theorem warning_mem_warnings (h : j < w.storeCount) : s.warning w j ∈ s.warnings w ↔ s.Drops j := by
  constructor
  · intro hmem
    obtain ⟨k, hk, he⟩ := List.mem_map.1 hmem
    -- reports of the same place
    have hplace : s.placeToStore k = s.placeToStore j := (Event.droppedStore.inj he).2.1
    have hr : s.Drops k := by simpa using (List.mem_filter.1 hk).2
    rwa [Drops, ← toNat_placeToStore, ← hplace, toNat_placeToStore]
  · intro hr
    refine List.mem_map.2 ⟨j, List.mem_filter.2 ⟨List.mem_range.2 h, ?_⟩, rfl⟩
    exact decide_eq_true hr

end State

/-! ### The law -/

/-- What a report shows, and for which readers. -/
def Event.line (e : Event) : Level × String := (e.level, e.message)

theorem State.line_warning (s : State) (w : Word) (j : Nat) :
    ∃ digits place origin,
      (s.warning w j).line =
        (.warn, "ignoring write of 0x" ++ digits ++ " to reserved address 0x" ++ place ++
          " at 0x" ++ origin) ∧
      Hex.Fills 2 (s.byteToStore w j).toNat digits ∧
      Hex.Fills 3 ((s.index.toNat + j) % 0x1000) place ∧
      Hex.Fills 3 (s.pc.toNat % 0x1000) origin := by
  have hsite : s.pc.address.toNat = s.pc.toNat % 0x1000 := BitVec.toNat_setWidth ..
  obtain ⟨digits, place, origin, hmessage, hdigits, hplace, horigin⟩ :=
    Event.exists_droppedStore (s.byteToStore w j) (s.placeToStore j) s.pc.address
  rw [toNat_placeToStore] at hplace
  rw [hsite] at horigin
  exact ⟨digits, place, origin, congrArg (Level.warn, ·) hmessage, hdigits, hplace, horigin⟩

namespace Machine

/-- A check ends a wait. -/
def EndsWait (m : Machine) : Prop :=
  m.state.mode ≠ .running ∧ m.check.state.state.mode = .running

/-- The law of reports. -/
structure LogLaw (m : Machine) : Prop where
  /-- A step reports the instruction, then each byte that it drops, then the wait that it starts,
  and nothing else, whether it fails or not. -/
  running : m.state.mode = .running →
    m.step.log = .executing m.state.pc m.state.fetch m.state.registers m.state.index ::
      (m.state.warnings m.state.fetch ++ m.state.fetch.waitReports)
  /-- In a wait, a step reports nothing. -/
  waiting : m.state.mode ≠ .running → m.step.log = []
  /-- A byte is reported just if it is not stored. -/
  dropped_iff : m.state.mode = .running → ∀ j < m.state.fetch.storeCount,
    m.state.warning m.state.fetch j ∈ m.step.log ↔ ¬ m.state.Stores m.state.fetch j
  /-- Then its place is as it was. -/
  dropped : m.state.mode = .running → ∀ j < m.state.fetch.storeCount,
    m.state.warning m.state.fetch j ∈ m.step.log →
      m.step.state.state.memory.get (m.state.placeToStore j) =
        m.state.memory.get (m.state.placeToStore j)
  /-- A check reports something just if it ends a wait. -/
  check_iff : m.check.log ≠ [] ↔ m.EndsWait
  /-- This is one report, of the register and the key that it has received. -/
  check : m.EndsWait → ∃ key x, m.state.mode = .waiting x ∧
    m.check.state.state.registers.get x = key.setWidth 8 ∧ m.check.log = [.keyPressed key x]
  /-- Loading a program reports its size just if it succeeds. -/
  load : ∀ rom, (m.load rom).log =
    if (m.load rom).fault = none then [.loadedRom rom.length] else []
  /-- The report of an instruction shows its place, its word, its text and the registers. -/
  trace_line : ∀ pc op registers index, ∃ address word rest message,
    (Event.executing pc op registers index).line = (.trace, message) ∧
      Event.ShowsExecution pc op registers index address word rest message
  /-- The report of a byte that is dropped shows the byte, its place and the address of the
  instruction. -/
  warning_line : ∀ w j, ∃ digits place origin,
    (m.state.warning w j).line =
      (.warn, "ignoring write of 0x" ++ digits ++ " to reserved address 0x" ++ place ++
        " at 0x" ++ origin) ∧
      Hex.Fills 2 (m.state.byteToStore w j).toNat digits ∧
      Hex.Fills 3 ((m.state.index.toNat + j) % 0x1000) place ∧
      Hex.Fills 3 (m.state.pc.toNat % 0x1000) origin
  /-- The reports of key waits show the register and the key. -/
  wait_line : ∀ x key, ∃ register pressed,
    (Event.awaitingKey x).line = (.debug, "waiting for a key press into V" ++ register) ∧
      (Event.keyPressed key x).line =
        (.debug, "key " ++ pressed ++ " pressed into V" ++ register) ∧
      Hex.Fills 1 x.toNat register ∧ Hex.Fills 1 key.toNat pressed
  /-- The report of a program shows its size. -/
  load_line : ∀ size, (Event.loadedRom size).line =
    (.info, "loaded ROM [size: " ++ toString size ++ "]")

variable {m : Machine}

theorem log_step_of_running (h : m.state.mode = .running) :
    m.step.log =
      m.state.trace :: (m.state.warnings m.state.fetch ++ m.state.fetch.waitReports) := by
  rw [step, Outcome.log_map, State.step_of_running h, Outcome.log_after, State.log_perform]
  rfl

/-- A byte is reported in a step just if its place is reserved. -/
theorem warning_mem_log_step {j : Nat} (h : m.state.mode = .running)
    (hj : j < m.state.fetch.storeCount) :
    m.state.warning m.state.fetch j ∈ m.step.log ↔ m.state.Drops j := by
  have htrace : m.state.warning m.state.fetch j ≠ m.state.trace := by
    intro he
    cases he
  have hwait : m.state.warning m.state.fetch j ∉ m.state.fetch.waitReports := by
    unfold Word.waitReports
    split
    · intro hmem
      cases List.mem_singleton.1 hmem
    · exact List.not_mem_nil
  rw [log_step_of_running h, List.mem_cons, List.mem_append, State.warning_mem_warnings hj]
  simp only [htrace, hwait, false_or, or_false]

theorem log_check_of_endsWait (h : m.EndsWait) :
    ∃ key x, m.state.mode = .waiting x ∧
      m.check.state.state.registers.get x = key.setWidth 8 ∧ m.check.log = [.keyPressed key x] := by
  cases hw : m.state.mode with
  | running => exact absurd hw h.1
  | waiting x =>
    cases hk : m.state.keypad.freshKey? m.checked with
    | none =>
      have hmode := h.2
      rw [check_of_stale (.inr hk)] at hmode
      exact absurd hmode h.1
    | some key =>
      refine ⟨key, x, rfl, ?_, ?_⟩
      · rw [check_of_freshKey? hw hk]
        exact Bank.get_set_self ..
      · rw [check_of_freshKey? hw hk]
        rfl

theorem log_check_of_not_endsWait (h : ¬ m.EndsWait) : m.check.log = [] := by
  have hstale : m.state.mode = .running ∨ m.state.keypad.freshKey? m.checked = none := by
    cases hw : m.state.mode with
    | running => exact .inl rfl
    | waiting x =>
      refine .inr (Option.eq_none_iff_forall_ne_some.2 fun key hk => h ⟨?_, ?_⟩)
      · rw [hw]
        exact Mode.noConfusion
      · rw [check_of_freshKey? hw hk]
        rfl
  rw [check_of_stale hstale]
  rfl

theorem log_check_ne_nil_iff : m.check.log ≠ [] ↔ m.EndsWait := by
  constructor
  · intro hlog
    by_contra h
    exact hlog (log_check_of_not_endsWait h)
  · intro h
    obtain ⟨key, x, -, -, hlog⟩ := log_check_of_endsWait h
    rw [hlog]
    exact List.cons_ne_nil _ _

theorem log_load (m : Machine) (rom : List Byte) :
    (m.load rom).log = if (m.load rom).fault = none then [.loadedRom rom.length] else [] := by
  by_cases h : rom.length ≤ 3584
  · rw [if_pos (fault_load_eq_none_iff.2 h), load_of_le h]
    rfl
  · rw [if_neg (mt fault_load_eq_none_iff.1 h), load_of_lt (Nat.not_le.1 h)]
    rfl

/-- **The log is exact.** A step in which the processor runs reports the instruction, then, in
order, those of its bytes that are dropped, and then the key wait that it starts. A byte is
reported just if it is not stored. In a wait, a step reports nothing; a check reports one key just
if it ends a wait, and loading reports a program just if it succeeds. The texts spell the numbers
in hexadecimal, each with its digits, and show all sixteen registers. -/
theorem log_exact (m : Machine) : m.LogLaw where
  running h := log_step_of_running h
  waiting h := by
    cases hw : m.state.mode with
    | running => exact absurd hw h
    | waiting x =>
      rw [step_of_waiting hw]
      rfl
  dropped_iff h j hj := by
    rw [warning_mem_log_step h hj, State.stores_iff hj, not_not]
  dropped h j hj hmem := by
    rw [step, Outcome.state_map, State.step_of_running h, Outcome.state_after]
    refine (State.get_perform_placeToStore m.state.memory hj).trans (if_pos ?_)
    exact (warning_mem_log_step h hj).1 hmem
  check_iff := log_check_ne_nil_iff
  check := log_check_of_endsWait
  load := log_load m
  trace_line pc op registers index := by
    obtain ⟨address, word, rest, hshows⟩ := Event.exists_showsExecution registers index pc op
    exact ⟨address, word, rest, _, rfl, hshows⟩
  warning_line := m.state.line_warning
  wait_line x key := ⟨_, _, rfl, rfl, Digit.fills_text x, Digit.fills_text key⟩
  load_line _ := rfl

end Machine

end ChipEight
