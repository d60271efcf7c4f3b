import ChipEight.Log
import ChipEight.Proofs.Numerals

/-!
# The texts of reports

Reports spell numbers in hexadecimal. A number has one numeral of each width, so the text of a
report is known when the numbers in it and the characters between them are. The report of an
instruction has its assembly text in a column of sixteen characters, with blanks behind it, and
the registers in a list with two digits each.

* `padRight_eq` : a text in a column;
* `Event.ListsRegisters`, `Event.ShowsRegisters` : the registers as numerals, and a text with these
  and the index register;
* `Event.ShowsExecution`, `Event.exists_showsExecution` : what the report of an instruction shows;
* `Event.exists_droppedStore` : what the report of a byte that is dropped shows.
-/

namespace ChipEight

theorem padRight_eq (width : Nat) (s : String) :
    padRight width s = s ++ String.ofList (List.replicate (width - s.length) ' ') := by
  rw [padRight, List.rightpad, String.ofList_append, String.ofList_toList, String.length_toList]

theorem Digit.fills_text (d : Digit) : Hex.Fills 1 d.toNat (Digit.text d) :=
  Hex.fills_numeral (by decide) d.isLt

namespace Event

/-- The numerals of the registers, in order and with two digits each. -/
structure ListsRegisters (registers : Bank 4 Byte) (cells : List String) : Prop where
  /-- There is one for each register. -/
  length_eq : cells.length = 16
  /-- Number `x` is that of register `x`. -/
  cell : ∀ x : Digit, ∃ cell, cells[x.toNat]? = some cell ∧
    Hex.Fills 2 (registers.get x).toNat cell

/-- The text shows the registers between brackets, and the index register with four digits. -/
def ShowsRegisters (registers : Bank 4 Byte) (index : Word) (text : String) : Prop :=
  ∃ cells last, text = "v[" ++ ", ".intercalate cells ++ "] i" ++ last ∧
    ListsRegisters registers cells ∧ Hex.Fills 4 index.toNat last

/-- The text shows the instruction with the word `op` at the place `pc`, and the registers as they
are before it. -/
structure ShowsExecution (pc op : Word) (registers : Bank 4 Byte) (index : Word)
    (address word rest text : String) : Prop where
  /-- Place, word and assembly text stand side by side, with blanks up to sixteen characters behind
  the assembly text. -/
  columns : text = address ++ ": " ++ word ++ " " ++ (Instruction.decode op).text ++
    String.ofList (List.replicate (16 - (Instruction.decode op).text.length) ' ') ++ " " ++ rest
  /-- The place is written in hexadecimal. -/
  address_spelt : Hex.Spells 3 pc.toNat address
  /-- So is the word, which takes four digits. -/
  word_spelt : Hex.Fills 4 op.toNat word
  /-- The rest shows the registers. -/
  registers_shown : ShowsRegisters registers index rest

variable (registers : Bank 4 Byte) (index : Word)

theorem listsRegisters_map :
    ListsRegisters registers (registers.toList.map fun b => Hex.numeral 2 b.toNat) where
  length_eq := by
    rw [List.length_map, Bank.length_toList]
    rfl
  cell x := by
    refine ⟨_, ?_, Hex.fills_numeral (by decide) (registers.get x).isLt⟩
    rw [List.getElem?_map, Bank.getElem?_toList registers x.isLt, BitVec.ofNat_toNat,
      BitVec.setWidth_eq]
    rfl

theorem showsRegisters_append :
    ShowsRegisters registers index
      ("v" ++ registersText registers ++ " i" ++ Hex.numeral 4 index.toNat) := by
  refine ⟨_, _, ?_, listsRegisters_map registers, Hex.fills_numeral (by decide) index.isLt⟩
  have hopen : "v[" = "v" ++ "[" := rfl
  have hclose : "] i" = "]" ++ " i" := rfl
  rw [registersText, hopen, hclose]
  simp only [String.append_assoc]

theorem exists_showsExecution (pc op : Word) :
    ∃ address word rest, ShowsExecution pc op registers index address word rest
      (executing pc op registers index).message := by
  refine ⟨_, _, _, ?_, Hex.spells_numeral (by decide) pc.toNat,
    Hex.fills_numeral (by decide) op.isLt, showsRegisters_append registers index⟩
  have hcolumn : " v" = " " ++ "v" := rfl
  change Hex.numeral 3 pc.toNat ++ ": " ++ Hex.numeral 4 op.toNat ++ " " ++
    padRight 16 (Instruction.decode op).text ++ " v" ++ registersText registers ++ " i" ++
    Hex.numeral 4 index.toNat = _
  rw [padRight_eq, hcolumn]
  simp only [String.append_assoc]

theorem exists_droppedStore (value : Byte) (target site : Address) :
    ∃ digits place origin,
      (droppedStore value target site).message =
        "ignoring write of 0x" ++ digits ++ " to reserved address 0x" ++ place ++ " at 0x" ++
          origin ∧
      Hex.Fills 2 value.toNat digits ∧ Hex.Fills 3 target.toNat place ∧
      Hex.Fills 3 site.toNat origin := by
  refine ⟨_, _, _, ?_, Hex.fills_numeral (by decide) value.isLt,
    Hex.fills_numeral (by decide) target.isLt, Hex.fills_numeral (by decide) site.isLt⟩
  have hdigits : "ignoring write of 0x" = "ignoring write of " ++ "0x" := rfl
  have hplace : " to reserved address 0x" = " to reserved address " ++ "0x" := rfl
  have horigin : " at 0x" = " at " ++ "0x" := rfl
  change "ignoring write of " ++ ("0x" ++ _) ++ " to reserved address " ++ ("0x" ++ _) ++ " at " ++
    ("0x" ++ _) = _
  rw [hdigits, hplace, horigin]
  simp only [String.append_assoc]

end Event

end ChipEight
