import ChipEight.Proofs.Assembler
import ChipEight.Proofs.Messages
import ChipEight.Proofs.WellFormed

/-!
# The trace and the listing

Before an instruction is executed, a report of level `trace` shows where it stands, its word and
its text. No other report has that level, so the trace of a session is that of its steps. The
words of a program are put together in two ways: a listing takes the bytes of the program two by
two, the processor takes them from memory. Both give the same, also where the program ends in half
a word, since there is a zero in memory behind it. And as a number has one numeral of each width,
a line of the listing and the report of the instruction spell them alike.

* `traceReports` : the reports of level `trace` in a log;
* `Memory.wordAt_load_initial` : memory holds the words of a program at their places;
* `State.showsExecution_trace` : what the trace shows of an instruction whose bytes are those of the
  program;
* `Machine.reports`, `Machine.traces` : all that calls report, and the trace of operations;
* `Machine.traceReports_reports` : the trace of calls is that of the operations that they make;
* `Machine.trace_of_listing` : listing, memory and trace agree.
-/

namespace ChipEight

/-- The reports of a log that only a reader of level `trace` sees. -/
def traceReports (log : List Event) : List Event := log.filter fun e => e.level = .trace

@[simp] theorem traceReports_append (log later : List Event) :
    traceReports (log ++ later) = traceReports log ++ traceReports later :=
  List.filter_append log later

theorem traceReports_eq_nil {log : List Event} (h : ∀ e ∈ log, e.level ≠ .trace) :
    traceReports log = [] :=
  List.filter_eq_nil_iff.2 fun e he => by simp [h e he]

theorem Instruction.traceReports_execute (i : Instruction) (op : Word) (s : State) :
    traceReports (i.execute op s).log = [] := by
  refine traceReports_eq_nil fun e he => ?_
  rcases mem_execute_log op s he with ⟨v, a, site, rfl⟩ | ⟨x, rfl⟩
  · simp [Event.level]
  · simp [Event.level]

/-! ### The words of a program -/

/-- The word of a program is what memory holds at its place, a zero behind the program included. -/
theorem Memory.wordAt_load_initial {rom : List Byte} (hlength : rom.length ≤ 3584) {k : Nat}
    (hk : k < (rom.length + 1) / 2) {a : Address} (ha : a.toNat = 0x200 + 2 * k) :
    (Memory.initial.load rom).wordAt a = Rom.word rom k := by
  have hhigh : a = BitVec.ofNat 12 (0x200 + 2 * k) := by
    rw [← ha, BitVec.ofNat_toNat, BitVec.setWidth_eq]
  have hlow : a + 1 = BitVec.ofNat 12 (0x200 + (2 * k + 1)) := by
    rw [hhigh, ← Nat.add_assoc, BitVec.ofNat_add _ 1]
    rfl
  rw [Memory.wordAt, Rom.word, hlow, hhigh, Memory.get_load_initial rom (by omega),
    Memory.get_load_initial rom (by omega)]

/-- Where memory holds a word of the program, the trace shows the place, the word and the text that
the listing shows. -/
theorem State.showsExecution_trace {rom : List Byte} {k : Nat} {line address word : String}
    {w : Word} (hshows : Rom.Shows rom k line address word w) {s : State} (hs : s.WellFormed)
    (hpc : s.pc.address.toNat = 0x200 + 2 * k) (hword : s.fetch = w) :
    ∃ rest, Event.ShowsExecution s.pc w s.registers s.index address word rest s.trace.message := by
  obtain ⟨address', word', rest, h⟩ :=
    Event.exists_showsExecution s.registers s.index s.pc w
  have hplace : s.pc.toNat = 0x200 + 2 * k := by
    rw [← hpc, Word.address, BitVec.toNat_setWidth]
    exact (Nat.mod_eq_of_lt hs.pc_lt).symm
  have haddress := h.address_spelt
  rw [hplace] at haddress
  obtain rfl : address' = address := haddress.unique hshows.address_spelt
  obtain rfl : word' = word := h.word_spelt.unique hshows.word_spelt
  rw [State.trace, hword]
  exact ⟨rest, h⟩

namespace Machine

/-- All reports of a call. -/
def reportsOf (m : Machine) : Call → List Event
  | .single op => (m.perform op).log
  | .run config due polls => (m.run config due polls).outcome.log

/-- All reports of one call after the other. -/
def reports : Machine → List Call → List Event
  | _, [] => []
  | m, c :: calls => m.reportsOf c ++ reports (m.call c) calls

/-- The trace of one operation after the other. -/
def traces (m : Machine) (ops : List Operation) : List Event :=
  m.along (fun m op => traceReports (m.perform op).log) ops

variable {m : Machine} {op : Operation} {ops later : List Operation}

theorem traces_cons :
    m.traces (op :: ops) = traceReports (m.perform op).log ++ (m.perform op).state.traces ops := rfl

theorem traces_append : m.traces (ops ++ later) = m.traces ops ++ (m.after ops).traces later :=
  along_append

/-! ### The trace of operations and of calls -/

theorem traceReports_of_wordOf?_some {w : Word} (h : m.wordOf? op = some w) :
    traceReports (m.perform op).log = [m.state.trace] := by
  rw [perform_of_wordOf?_some h, Outcome.log_map, Outcome.log_after, traceReports_append,
    State.perform, Instruction.traceReports_execute]
  rfl

theorem traceReports_load (rom : List Byte) : traceReports (m.load rom).log = [] := by
  rw [load]
  split
  · rfl
  · rfl

theorem traceReports_check : traceReports m.check.log = [] := by
  rw [check]
  split
  · rfl
  · rfl

theorem traceReports_of_ne_step (h : op ≠ .step) : traceReports (m.perform op).log = [] := by
  cases op with
  | load rom => exact traceReports_load rom
  | loadFrom reads =>
    rw [perform, loadFrom]
    split
    · exact traceReports_load _
    · rfl
  | step => exact absurd rfl h
  | key edit => rfl
  | check => exact traceReports_check
  | tick => rfl

theorem traces_eq_nil (h : ∀ op ∈ ops, op ≠ .step) : m.traces ops = [] := by
  induction ops generalizing m with
  | nil => rfl
  | cons op ops ih =>
    obtain ⟨hop, hops⟩ := List.forall_mem_cons.1 h
    rw [traces_cons, traceReports_of_ne_step hop, ih hops, List.nil_append]

/-- What follows the instruction of a turn adds nothing to the trace. -/
theorem traceReports_finishTurn (buzzing : Bool) (poll : Poll) (due : Nat) :
    traceReports (m.finishTurn buzzing poll due).playback.outcome.log = [] := by
  have hbuzzer (switchings : List Bool) : traceReports (switchings.map Event.buzzer) = [] := by
    refine traceReports_eq_nil fun e he => ?_
    obtain ⟨on, -, rfl⟩ := List.mem_map.1 he
    simp [Event.level]
  have hfarewell : traceReports (if poll.quits then [Event.quitRequested] else []) = [] := by
    split
    · rfl
    · rfl
  simp only [finishTurn, Outcome.log_after, Outcome.log_reported, traceReports_append, hbuzzer,
    hfarewell, traceReports_check, List.append_nil]

/-- The trace of a turn is that of its operations, of which the step comes first. -/
theorem traceReports_turn {r : Round} {buzzing : Bool} :
    traceReports (r.start.turn buzzing r.poll r.due).playback.outcome.log =
      r.start.traces r.operations := by
  cases h : r.fails with
  | true =>
    rw [turn_of_fails h, Round.operations, if_pos h]
    exact (List.append_nil _).symm
  | false =>
    have hrest : ∀ op ∈ r.poll.edits.map .key ++ List.replicate r.due .tick ++ [.check],
        op ≠ Operation.step := by
      intro op hop
      simp only [List.mem_append, List.mem_map, List.mem_replicate, List.mem_singleton] at hop
      rintro rfl
      simp at hop
    rw [turn_of_not_fails h, Playback.after, Outcome.log_after, traceReports_append,
      traceReports_finishTurn, Round.operations, if_neg (by simp [h]), traces_cons,
      traces_eq_nil hrest]
    rfl

theorem traceReports_play {due : Nat → Nat} {buzzing : Bool} {k : Nat} {polls : List Poll} :
    traceReports (play due m buzzing k polls).outcome.log =
      m.traces ((m.rounds due k polls).flatMap Round.operations) := by
  refine play_induction (P := fun m _ played rounds =>
    traceReports played.outcome.log = m.traces (rounds.flatMap Round.operations))
    (fun r buzzing => ?_) fun r buzzing later rounds hf ih => ?_
  · rw [List.flatMap_singleton]
    exact traceReports_turn
  · rw [Playback.after, Outcome.log_after, traceReports_append, traceReports_turn, ih,
      List.flatMap_cons, traces_append, Round.after_operations hf]

/-- The trace of calls is that of the operations that they make. -/
theorem traceReports_reports (calls : List Call) :
    traceReports (m.reports calls) = m.traces (m.history calls) := by
  induction calls generalizing m with
  | nil => rfl
  | cons c calls ih =>
    have hc : traceReports (m.reportsOf c) = m.traces (m.operationsOf c) := by
      cases c with
      | single op => exact (List.append_nil _).symm
      | run config due polls => exact traceReports_play
    rw [reports, history, traceReports_append, traces_append, hc, ih, call_eq_after]

/-- **The listing of a program shows what the machine executes.** The line number `k` of the
listing shows the place `0x200 + 2 * k` and the word that the processor would take from there in
the machine that has just loaded the program, also if the word is half a word at the end of the
program. Whatever is done to this machine, the trace is that of its steps; and a step at this place
adds one report to it, which shows the same place and the same word with the same digits, and the
same text with blanks up to sixteen characters behind it, as long as the two bytes there are those
of the program. -/
theorem trace_of_listing (random : RandomSource) {rom : List Byte} (hlength : rom.length ≤ 3584) :
    let loaded := (new random).load rom
    let m := loaded.state
    loaded.fault = none ∧
      (Rom.disassemble rom).length = (rom.length + 1) / 2 ∧
      (∀ calls, m.afterCalls calls = m.after (m.history calls) ∧
        traceReports (m.reports calls) = m.traces (m.history calls)) ∧
      ∀ k < (rom.length + 1) / 2, ∃ line address word text w,
        (Rom.disassemble rom)[k]? = some line ∧ Rom.Shows rom k line address word w ∧
        line = address ++ "  " ++ word ++ "  " ++ text ∧ text = (Instruction.decode w).text ∧
        State.fetch { m.state with pc := BitVec.ofNat 16 (0x200 + 2 * k) } = w ∧
        ∀ ops, let s := (m.after ops).state
          s.mode = .running → s.pc.address.toNat = 0x200 + 2 * k →
          s.memory.get s.pc.address = m.state.memory.get s.pc.address →
          s.memory.get (s.pc.address + 1) = m.state.memory.get (s.pc.address + 1) →
          ∃ report rest, traceReports ((m.after ops).perform .step).log = [report] ∧
            report.message = address ++ ": " ++ word ++ " " ++ text ++
              String.ofList (List.replicate (16 - text.length) ' ') ++ " " ++ rest ∧
            Event.ShowsRegisters s.registers s.index rest := by
  intro loaded m
  have hloaded : loaded = _ := load_new random hlength
  have hmemory : m.state.memory = Memory.initial.load rom :=
    congrArg (fun o => o.state.state.memory) hloaded
  have hcount : (Rom.disassemble rom).length = (rom.length + 1) / 2 := by
    rw [Rom.disassemble, Rom.length_lines, Rom.length_words]
  refine ⟨congrArg Outcome.fault hloaded, hcount,
    fun calls => ⟨afterCalls_eq_after, traceReports_reports calls⟩, fun k hk => ?_⟩
  have hshows : Rom.Shows rom k _ _ _ _ := Rom.shows_line (by omega) hk
  refine ⟨_, _, _, _, _, Rom.getElem?_disassemble rom hk, hshows, hshows.columns, rfl, ?_, ?_⟩
  · rw [State.fetch, hmemory]
    refine Memory.wordAt_load_initial hlength hk ?_
    rw [Word.address, BitVec.toNat_setWidth, BitVec.toNat_ofNat]
    omega
  · intro ops s hmode hpc hhigh hlow
    have hs : s.WellFormed := wellFormed_after random (.load rom :: ops)
    have hword : s.fetch = Rom.word rom k := by
      rw [State.fetch, Memory.wordAt, hhigh, hlow, hmemory]
      exact Memory.wordAt_load_initial hlength hk hpc
    obtain ⟨rest, htrace⟩ := State.showsExecution_trace hshows hs hpc hword
    exact ⟨s.trace, rest, traceReports_of_wordOf?_some (if_pos hmode), htrace.columns,
      htrace.registers_shown⟩

/-- A program of one byte, which is half a word, after a tick and a check. -/
theorem trace_of_listing_half_word :
    let rom : List Byte := [0x60]
    let m := ((new (.ofList [])).load rom).state
    let s := (m.after [.tick, .check]).state
    rom.length ≤ 3584 ∧ Rom.disassemble rom = ["200  6000  LD V0, 0x00"] ∧
      State.fetch { m.state with pc := 0x200 } = 0x6000 ∧
      ∃ report rest, traceReports ((m.after [.tick, .check]).perform .step).log = [report] ∧
        report.message = "200: 6000 LD V0, 0x00      " ++ rest ∧
        Event.ShowsRegisters s.registers s.index rest := by
  intro rom m s
  have hlength : rom.length ≤ 3584 := by decide
  have hlist : Rom.disassemble rom = ["200  6000  LD V0, 0x00"] := by decide
  have hpc : s.pc.address.toNat = 0x200 := rfl
  obtain ⟨-, -, -, hlines⟩ := trace_of_listing (.ofList []) hlength
  obtain ⟨line, address, word, text, w, -, hshows, -, htext, hfetch, htrace⟩ := hlines 0 (by decide)
  obtain rfl : w = 0x6000 := BitVec.eq_of_toNat_eq hshows.word_eq
  obtain rfl : text = "LD V0, 0x00" := htext.trans (by decide)
  obtain rfl : address = "200" := hshows.address_spelt.unique (Hex.spells_numeral (by decide) 0x200)
  obtain rfl : word = "6000" := hshows.word_spelt.unique (Hex.spells_numeral (by decide) 0x6000)
  obtain ⟨report, rest, hreport, hmessage, hrest⟩ := htrace [.tick, .check] rfl hpc rfl rfl
  exact ⟨hlength, hlist, hfetch, report, rest, hreport, hmessage, hrest⟩

end Machine

end ChipEight
