import ChipEight.Proofs.History

/-!
# Loading a program

A program that fits is copied to the part of memory that programs occupy, byte for byte, and
nothing else changes; one that does not fit changes nothing at all. It makes no difference in which
pieces a program arrives and how often a read is interrupted. A failure before the end is reported
as such, however long the program has become by then, since its length is looked at only when all
of it has been read.

* `ReadEvent.arrived`, `ReadEvent.breakdown?` : the bytes that arrive before reading ends, and the
  failure that it ends with, if it does;
* `ReadEvent.collect_eq` : what a program is put together from;
* `Fault.message_romTooLarge` : a program that does not fit is told the limit;
* `Machine.Loads`, `Machine.LoadsFrom` : the laws of loading a program, whole and in pieces;
* `Machine.load_exact` : the result.
-/

namespace ChipEight

namespace ReadEvent

/-- Whether reading goes on after a read, because it gave some bytes or is tried again. -/
def goesOn : ReadEvent → Bool
  | chunk bytes => !bytes.isEmpty
  | interrupted => true
  | failed _ => false

/-- The bytes that a read gives. -/
def bytes : ReadEvent → List Byte
  | chunk bytes => bytes
  | interrupted | failed _ => []

/-- The bytes that arrive before reading ends. -/
def arrived (reads : List ReadEvent) : List Byte := (reads.takeWhile goesOn).flatMap bytes

/-- The reason of the failure that reading ends with, if it does not just come to the end. -/
def breakdown? (reads : List ReadEvent) : Option String :=
  match (reads.dropWhile goesOn).head? with
  | some (failed reason) => some reason
  | _ => none

variable {e : ReadEvent} {reads : List ReadEvent}

theorem arrived_cons (h : e.goesOn = true) : arrived (e :: reads) = e.bytes ++ arrived reads := by
  rw [arrived, List.takeWhile_cons_of_pos h, List.flatMap_cons]
  rfl

theorem breakdown?_cons (h : e.goesOn = true) : breakdown? (e :: reads) = breakdown? reads := by
  rw [breakdown?, List.dropWhile_cons_of_pos h]
  rfl

/-- A program is put together from the bytes that arrive, unless reading ends with a failure. -/
theorem collect_eq (reads : List ReadEvent) :
    collect reads =
      match breakdown? reads with
      | some reason => .error reason
      | none => .ok (arrived reads) := by
  induction reads with
  | nil => rfl
  | cons e reads ih =>
    cases e with
    | chunk piece =>
      cases piece with
      | nil => rfl
      | cons b piece =>
        rw [collect, breakdown?_cons rfl, arrived_cons rfl, ih]
        cases breakdown? reads with
        | none => rfl
        | some reason => rfl
    | interrupted =>
      rw [collect, breakdown?_cons rfl, arrived_cons rfl, ih]
      rfl
    | failed reason => rfl

end ReadEvent

theorem Fault.message_romTooLarge (size : Nat) :
    (romTooLarge size).message =
      "ROM is too large (" ++ toString size ++ " bytes), max size is 3584 bytes" := by
  have hlimit : " bytes), max size is " ++ (toString maxRomSize ++ " bytes") =
      " bytes), max size is 3584 bytes" := by decide +kernel
  rw [← hlimit, ← String.append_assoc, ← String.append_assoc]
  rfl

namespace Machine

/-- The law of loading a program. -/
structure Loads (m : Machine) (rom : List Byte) : Prop where
  /-- A program fits if it has 3584 bytes or less. -/
  succeeds_iff : (m.load rom).fault = none ↔ rom.length ≤ 3584
  /-- A program that fits is copied to the places from `0x200` on. -/
  copied : (m.load rom).fault = none → ∀ k (h : k < rom.length), 0x200 + k < 0x1000 ∧
    (m.load rom).state.state.memory.get (.ofNat 12 (0x200 + k)) = rom[k]
  /-- The other bytes of memory are as they were. -/
  others : ∀ a : Address, (∀ k < rom.length, a.toNat ≠ 0x200 + k) →
    (m.load rom).state.state.memory.get a = m.state.memory.get a
  /-- So is all else. -/
  rest : (m.load rom).state =
    { m with state := { m.state with memory := (m.load rom).state.state.memory } }
  /-- A program that does not fit is rejected, and nothing changes. -/
  rejected : (m.load rom).fault ≠ none → m.load rom = .failed m (.romTooLarge rom.length)
  /-- The report of this tells the length and the limit. -/
  message : (Fault.romTooLarge rom.length).message =
    "ROM is too large (" ++ toString rom.length ++ " bytes), max size is 3584 bytes"

/-- The law of loading a program that arrives in pieces. -/
structure LoadsFrom (m : Machine) (reads : List ReadEvent) : Prop where
  /-- If reading comes to the end, all bytes that have arrived are loaded as one program. -/
  arrives : ReadEvent.breakdown? reads = none →
    m.loadFrom reads = m.load (ReadEvent.arrived reads)
  /-- If it ends with a failure, this is reported, and nothing changes. -/
  breaks : ∀ reason, ReadEvent.breakdown? reads = some reason →
    m.loadFrom reads = .failed m (.unreadable reason)

theorem loads (m : Machine) (rom : List Byte) : m.Loads rom where
  succeeds_iff := fault_load_eq_none_iff
  copied hf k hk := by
    have hle := fault_load_eq_none_iff.1 hf
    have hlt : 0x200 + k < 0x1000 := by omega
    refine ⟨hlt, ?_⟩
    rw [load_of_le hle, Outcome.state_reported, Memory.get_load_ofNat _ _ hlt,
      List.getD_eq_getElem?_getD, List.getElem?_eq_getElem hk, Option.getD_some]
  others a ha := by
    by_cases h : rom.length ≤ 3584
    · rw [load_of_le h, Outcome.state_reported]
      exact Memory.get_load_of_ne _ ha
    · rw [load_of_lt (Nat.not_le.1 h)]
      rfl
  rest := by
    rw [load_state]
  rejected hf := load_of_lt (Nat.not_le.1 (mt fault_load_eq_none_iff.2 hf))
  message := Fault.message_romTooLarge rom.length

theorem loadsFrom (m : Machine) (reads : List ReadEvent) : m.LoadsFrom reads where
  arrives h := by rw [loadFrom, ReadEvent.collect_eq, h]
  breaks reason h := by rw [loadFrom, ReadEvent.collect_eq, h]

/-- **Loading is exact.** A program of 3584 bytes or less is copied into memory, and no other byte
and no other part of the machine changes; a longer one is rejected and changes nothing. A program
that arrives in pieces is loaded like one that arrives whole, with interrupted reads left out and
up to the first empty piece. A failure before this point is reported and changes nothing, even if
what has been read by then is too long already. -/
theorem load_exact (m : Machine) (rom : List Byte) (reads : List ReadEvent) :
    m.Loads rom ∧ m.LoadsFrom reads :=
  ⟨m.loads rom, m.loadsFrom reads⟩

/-- The failure of a read counts, although too much has been read before it; the end that comes
later does not. -/
theorem load_exact_of_broken_reader :
    let m := new (.ofList [])
    let reads : List ReadEvent :=
      [.chunk (List.replicate 4000 0xAB), .interrupted, .failed "unplugged", .chunk []]
    ReadEvent.breakdown? reads = some "unplugged" ∧
      m.loadFrom reads = .failed m (.unreadable "unplugged") := by
  intro m reads
  have hbreakdown : ReadEvent.breakdown? reads = some "unplugged" := rfl
  exact ⟨hbreakdown, (load_exact m [] reads).2.breaks _ hbreakdown⟩

end Machine

end ChipEight
