import ChipEight.Instruction.Encode
import ChipEight.Proofs.Numerals
import ChipEight.Rom.Disassembly
import ChipEight.Text.Lines

/-!
# An assembler

The assembly text of a program says all about it. Operands do not hold commas and are spelt in
ways that can be told apart, mnemonics do not hold blanks, and a mnemonic together with the kinds
of its operands belongs to a single instruction. So a text can be read back, and an assembler needs
nothing else from the lines of a disassembly. All that it cannot tell is whether a program ends in
a zero or lacks a partner for its last byte.

* `Operand.ofChars?`, `Statement.ofChars?`, `Instruction.ofText?` : reading the text of operands,
  statements and instructions;
* `Instruction.ofText?_text` : each instruction is read from its text as what it is;
* `Rom.textColumn`, `Rom.assemble` : the assembly text in a line, and the program with such texts;
* `Rom.word`, `Rom.place` : the words of a program, by number, and where they are put;
* `Rom.Shows`, `Rom.shows_line` : what a line of a disassembly shows;
* `Rom.assemble_disassemble` : the assembler undoes the disassembler.
-/

namespace ChipEight

/-! ### Operands -/

namespace Operand

/-- The operand that is written with so many hexadecimal digits for the number `n`. -/
def ofWidth? (n : Nat) : Nat → Option Operand
  | 2 => some (byte (BitVec.ofNat 8 n))
  | 3 => some (address (BitVec.ofNat 12 n))
  | 4 => some (word (BitVec.ofNat 16 n))
  | _ => none

/-- The operand that is written with these digits behind `0x`. -/
def ofDigits? (digits : List Char) : Option Operand :=
  (Hex.value? digits).bind fun n => ofWidth? n digits.length

/-- The count that is written so in decimal. -/
def ofCount? (text : List Char) : Option Operand :=
  ((allWords 4).find? fun n => (toString n.toNat).toList = text).map count

/-- The operand that is spelt so. -/
def ofChars? : List Char → Option Operand
  | ['V', c] => (Hex.digitValue? c).map fun x => register (BitVec.ofNat 4 x)
  | ['I'] => some index
  | ['[', 'I', ']'] => some indirect
  | ['D', 'T'] => some delay
  | ['S', 'T'] => some sound
  | ['K'] => some key
  | ['F'] => some glyph
  | ['B'] => some decimal
  | '0' :: 'x' :: digits => ofDigits? digits
  | text => ofCount? text

theorem toList_prefixed {width n : Nat} :
    (Hex.prefixed width n).toList = '0' :: 'x' :: (Hex.numeral width n).toList := by
  rw [Hex.prefixed, String.toList_append]
  rfl

theorem ofChars?_prefixed {width n : Nat} (hw : 0 < width) (hn : n < wordCount (4 * width)) :
    ofChars? (Hex.prefixed width n).toList = ofWidth? n width := by
  have hlength : (Hex.numeral width n).toList.length = width := by
    rw [String.length_toList, Hex.length_numeral_of_lt hw hn]
  rw [toList_prefixed]
  change ofDigits? (Hex.numeral width n).toList = _
  rw [ofDigits?, Hex.value?_numeral, hlength]
  rfl

/-- Each operand is read as what it is. -/
theorem ofChars?_text (o : Operand) : ofChars? o.text.toList = some o := by
  cases o with
  | register x =>
    revert x
    decide
  | byte kk =>
    rw [text, Byte.text, ofChars?_prefixed (by decide) kk.isLt]
    simp [ofWidth?]
  | address nnn =>
    rw [text, Address.text, ofChars?_prefixed (by decide) nnn.isLt]
    simp [ofWidth?]
  | word w =>
    rw [text, Word.text, ofChars?_prefixed (by decide) w.isLt]
    simp [ofWidth?]
  | count n =>
    revert n
    decide
  | index | indirect | delay | sound | key | glyph | decimal => rfl

theorem comma_notMem_prefixed {width n : Nat} : ',' ∉ (Hex.prefixed width n).toList := by
  have hdigits : ',' ∉ (Hex.numeral width n).toList := Hex.notMem_numeral (by decide)
  rw [toList_prefixed]
  simp [hdigits]

theorem comma_notMem_text (o : Operand) : ',' ∉ o.text.toList := by
  cases o with
  | register x =>
    revert x
    decide
  | byte kk => exact comma_notMem_prefixed
  | address nnn => exact comma_notMem_prefixed
  | word w => exact comma_notMem_prefixed
  | count n =>
    revert n
    decide
  | index | indirect | delay | sound | key | glyph | decimal => decide

end Operand

/-! ### Statements -/

namespace Statement

/-- The parts of a text between a comma and a blank each. -/
def splitOperands : List Char → List (List Char)
  | [] => [[]]
  | ',' :: ' ' :: rest => [] :: splitOperands rest
  | c :: rest => Lines.push c (splitOperands rest)

/-- What stands before the first blank of a text. -/
def beforeBlank (text : List Char) : List Char := text.takeWhile (· ≠ ' ')

/-- The first blank of a text and what stands behind it; nothing if there is none. -/
def fromBlank (text : List Char) : List Char := text.dropWhile (· ≠ ' ')

/-- The statement that is written so. -/
def ofChars? (text : List Char) : Option Statement :=
  match fromBlank text with
  | [] => some ⟨String.ofList text, []⟩
  | _ :: operands =>
    ((splitOperands operands).mapM Operand.ofChars?).map fun operands =>
      ⟨String.ofList (beforeBlank text), operands⟩

variable {a b rest : List Char}

theorem splitOperands_cons {c : Char} (h : c ≠ ',') :
    splitOperands (c :: rest) = Lines.push c (splitOperands rest) := by
  rw [splitOperands]
  rintro _ rfl
  exact absurd rfl h

theorem splitOperands_of_notMem (h : ',' ∉ a) : splitOperands a = [a] := by
  induction a with
  | nil => rfl
  | cons c a ih =>
    obtain ⟨hc, ha⟩ : ',' ≠ c ∧ ',' ∉ a := by simpa using h
    rw [splitOperands_cons (Ne.symm hc), ih ha]
    rfl

theorem splitOperands_append (h : ',' ∉ a) :
    splitOperands (a ++ ',' :: ' ' :: b) = a :: splitOperands b := by
  induction a with
  | nil => rfl
  | cons c a ih =>
    obtain ⟨hc, ha⟩ : ',' ≠ c ∧ ',' ∉ a := by simpa using h
    rw [List.cons_append, splitOperands_cons (Ne.symm hc), ih ha]
    rfl

theorem splitOperands_intercalate {parts : List (List Char)} (hne : parts ≠ [])
    (h : ∀ part ∈ parts, ',' ∉ part) :
    splitOperands ([',', ' '].intercalate parts) = parts := by
  induction parts with
  | nil => exact absurd rfl hne
  | cons part parts ih =>
    obtain ⟨hpart, hparts⟩ := List.forall_mem_cons.1 h
    cases parts with
    | nil => rw [List.intercalate_singleton, splitOperands_of_notMem hpart]
    | cons next parts =>
      rw [List.intercalate_cons_cons, List.append_assoc]
      exact (splitOperands_append hpart).trans (congrArg (part :: ·) (ih (by simp) hparts))

theorem beforeBlank_append (h : ' ' ∉ a) : beforeBlank (a ++ ' ' :: b) = a := by
  have ha : ∀ c ∈ a, decide (c ≠ ' ') = true := by
    intro c hc
    exact decide_eq_true fun he => h (he ▸ hc)
  rw [beforeBlank, List.takeWhile_append_of_pos ha, List.takeWhile_cons_of_neg (by simp),
    List.append_nil]

theorem fromBlank_append (h : ' ' ∉ a) : fromBlank (a ++ b) = fromBlank b :=
  List.dropWhile_append_of_pos fun _ hc => decide_eq_true fun he => h (he ▸ hc)

theorem toList_text {mnemonic : String} {operands : List Operand} (h : operands ≠ []) :
    (Statement.mk mnemonic operands).text.toList =
      mnemonic.toList ++ ' ' :: [',', ' '].intercalate (operands.map (·.text.toList)) := by
  cases operands with
  | nil => exact absurd rfl h
  | cons o operands =>
    rw [text, String.toList_append, String.toList_append, String.toList_intercalate,
      List.map_map, List.append_assoc]
    rfl

/-- A statement is read as what it is, if its mnemonic is a single word. -/
theorem ofChars?_text (s : Statement) (h : ' ' ∉ s.mnemonic.toList) :
    ofChars? s.text.toList = some s := by
  obtain ⟨mnemonic, operands⟩ := s
  by_cases hne : operands = []
  · subst hne
    have hblank : fromBlank mnemonic.toList = [] := by
      rw [← List.append_nil mnemonic.toList, fromBlank_append h]
      rfl
    rw [text, ofChars?, hblank]
    simp
  · have hsplit : splitOperands ([',', ' '].intercalate (operands.map (·.text.toList))) =
        operands.map (·.text.toList) := by
      refine splitOperands_intercalate (by simpa using hne) fun part hpart => ?_
      obtain ⟨o, -, rfl⟩ := List.mem_map.1 hpart
      exact o.comma_notMem_text
    have hread : (operands.map (·.text.toList)).mapM Operand.ofChars? = some operands := by
      have hsome : (Operand.ofChars? ∘ fun o => o.text.toList) = fun o => pure (id o) :=
        funext Operand.ofChars?_text
      rw [List.mapM_map, hsome, List.mapM_pure, List.map_id]
      rfl
    have hblank : fromBlank (mnemonic.toList ++
        ' ' :: [',', ' '].intercalate (operands.map (·.text.toList))) =
        ' ' :: [',', ' '].intercalate (operands.map (·.text.toList)) := fromBlank_append h
    rw [toList_text hne, ofChars?, hblank]
    simp only [hsplit, hread, beforeBlank_append h, Option.map_some, String.ofList_toList]

end Statement

/-! ### Instructions -/

/-- The function of two registers that has this name. -/
def Arith.ofMnemonic? : String → Option Arith
  | "LD" => some copy
  | "OR" => some or
  | "AND" => some and
  | "XOR" => some xor
  | "ADD" => some add
  | "SUB" => some sub
  | "SHR" => some shiftRight
  | "SUBN" => some subFrom
  | "SHL" => some shiftLeft
  | _ => none

namespace Instruction

/-- The instruction with this statement. -/
def ofStatement? : Statement → Option Instruction
  | ⟨"CLS", []⟩ => some clear
  | ⟨"RET", []⟩ => some ret
  | ⟨"SYS", [.address nnn]⟩ => some (sys nnn)
  | ⟨"JP", [.address nnn]⟩ => some (jump nnn)
  | ⟨"JP", [.register 0x0#4, .address nnn]⟩ => some (jumpOffset nnn)
  | ⟨"CALL", [.address nnn]⟩ => some (call nnn)
  | ⟨"SE", [.register x, .byte kk]⟩ => some (skip (.byteIs x kk))
  | ⟨"SNE", [.register x, .byte kk]⟩ => some (skip (.byteIsNot x kk))
  | ⟨"SE", [.register x, .register y]⟩ => some (skip (.same x y))
  | ⟨"SNE", [.register x, .register y]⟩ => some (skip (.differ x y))
  | ⟨"SKP", [.register x]⟩ => some (skip (.keyDown x))
  | ⟨"SKNP", [.register x]⟩ => some (skip (.keyUp x))
  | ⟨"LD", [.register x, .byte kk]⟩ => some (loadByte x kk)
  | ⟨"ADD", [.register x, .byte kk]⟩ => some (addByte x kk)
  | ⟨"RND", [.register x, .byte kk]⟩ => some (random x kk)
  | ⟨"LD", [.index, .address nnn]⟩ => some (loadIndex nnn)
  | ⟨"DRW", [.register x, .register y, .count n]⟩ => some (draw x y n)
  | ⟨"LD", [.register x, .delay]⟩ => some (readDelay x)
  | ⟨"LD", [.register x, .key]⟩ => some (awaitKey x)
  | ⟨"LD", [.delay, .register x]⟩ => some (setDelay x)
  | ⟨"LD", [.sound, .register x]⟩ => some (setSound x)
  | ⟨"ADD", [.index, .register x]⟩ => some (addIndex x)
  | ⟨"LD", [.glyph, .register x]⟩ => some (pointGlyph x)
  | ⟨"LD", [.decimal, .register x]⟩ => some (storeDecimal x)
  | ⟨"LD", [.indirect, .register x]⟩ => some (storeRegisters x)
  | ⟨"LD", [.register x, .indirect]⟩ => some (loadRegisters x)
  | ⟨"???", [.word w]⟩ => some (unknown w)
  | ⟨mnemonic, [.register x, .register y]⟩ =>
    (Arith.ofMnemonic? mnemonic).map fun f => arith f x y
  | _ => none

theorem ofStatement?_statement (i : Instruction) : ofStatement? i.statement = some i := by
  cases i with
  | skip c => cases c <;> rfl
  | arith f x y => cases f <;> rfl
  | _ => rfl

/-- The instruction with this text. -/
def ofText? (text : String) : Option Instruction :=
  (Statement.ofChars? text.toList).bind ofStatement?

theorem blank_notMem_mnemonic (i : Instruction) : ' ' ∉ i.statement.mnemonic.toList := by
  cases i with
  | skip c => cases c <;> simp [statement, Condition.statement]
  | arith f x y => cases f <;> simp [statement, Arith.mnemonic]
  | _ => simp [statement]

/-- Every instruction can be read from its text. -/
theorem ofText?_text (i : Instruction) : ofText? i.text = some i := by
  rw [ofText?, text, Statement.ofChars?_text _ i.blank_notMem_mnemonic]
  exact i.ofStatement?_statement

/-- No two words have the same text, whether they are instructions or not. -/
theorem text_decode_injective {v w : Word} (h : (decode v).text = (decode w).text) : v = w := by
  refine decode_injective (Option.some.inj ?_)
  rw [← ofText?_text, h, ofText?_text]

end Instruction

/-! ### Programs -/

/-- The two bytes of a word, the high one first. -/
def Word.bytes (w : Word) : List Byte := [w.extractLsb' 8 8, w.extractLsb' 0 8]

theorem Word.bytes_ofBytes (high low : Byte) : (Word.ofBytes high low).bytes = [high, low] := by
  have hhigh : (Word.ofBytes high low).extractLsb' 8 8 = high := BitVec.extractLsb'_append_eq_left
  have hlow : (Word.ofBytes high low).extractLsb' 0 8 = low := BitVec.extractLsb'_append_eq_right
  rw [bytes, hhigh, hlow]

namespace Rom

/-- The program with a zero behind it if its last byte has no partner. -/
def padded (rom : List Byte) : List Byte := rom ++ List.replicate (rom.length % 2) 0

/-- The assembly text in a line of a disassembly: what stands behind the second pair of blanks. -/
def textColumn (line : String) : String :=
  String.ofList
    ((Statement.fromBlank ((Statement.fromBlank line.toList).drop 2)).drop 2)

/-- The program with these statements, if all of them are instructions or words. -/
def assemble (texts : List String) : Option (List Byte) :=
  (texts.mapM Instruction.ofText?).map (·.flatMap fun i => i.encode.bytes)

theorem flatMap_words (rom : List Byte) : (words rom).flatMap Word.bytes = padded rom := by
  fun_induction words rom with
  | case1 => rfl
  | case2 high => exact Word.bytes_ofBytes high 0
  | case3 high low rest ih =>
    have hparity : (rest.length + 1 + 1) % 2 = rest.length % 2 := by omega
    rw [List.flatMap_cons, ih, Word.bytes_ofBytes, padded, padded, List.length_cons,
      List.length_cons, hparity]
    rfl

theorem length_words (rom : List Byte) : (words rom).length = (rom.length + 1) / 2 := by
  fun_induction words rom with
  | case1 => rfl
  | case2 high => simp
  | case3 high low rest ih =>
    rw [List.length_cons, ih, List.length_cons, List.length_cons]
    omega

/-- The word number `k` of a program, with zeros behind its last byte. -/
def word (rom : List Byte) (k : Nat) : Word :=
  Word.ofBytes (rom.getD (2 * k) 0) (rom.getD (2 * k + 1) 0)

/-- The place where the word number `k` of a program is put. -/
def place (k : Nat) : Word := programStart.setWidth 16 + BitVec.ofNat 16 (2 * k)

theorem toNat_place {k : Nat} (h : 2 * k < 65024) : (place k).toNat = 0x200 + 2 * k := by
  rw [place, BitVec.toNat_add, BitVec.toNat_ofNat]
  change (0x200 + 2 * k % 0x10000) % 0x10000 = _
  omega

theorem getElem?_words (rom : List Byte) {k : Nat} (h : k < (words rom).length) :
    (words rom)[k]? = some (word rom k) := by
  fun_induction words rom generalizing k with
  | case1 => cases h
  | case2 high =>
    obtain rfl : k = 0 := by simpa using h
    rfl
  | case3 high low rest ih =>
    cases k with
    | zero => rfl
    | succ k =>
      rw [List.getElem?_cons_succ, ih (by simpa using h)]
      rfl

theorem length_lines (address : Word) (ws : List Word) : (lines address ws).length = ws.length := by
  induction ws generalizing address with
  | nil => rfl
  | cons w ws ih => rw [lines, List.length_cons, ih, List.length_cons]

theorem getElem?_lines (address : Word) (ws : List Word) (k : Nat) :
    (lines address ws)[k]? = ws[k]?.map (line (address + BitVec.ofNat 16 (2 * k))) := by
  induction ws generalizing address k with
  | nil => rfl
  | cons w ws ih =>
    cases k with
    | zero => simp [lines]
    | succ k =>
      have haddress : address + 2 + BitVec.ofNat 16 (2 * k) =
          address + BitVec.ofNat 16 (2 * (k + 1)) := by
        rw [Nat.mul_succ, Nat.add_comm (2 * k) 2, BitVec.ofNat_add, BitVec.add_assoc]
        rfl
      rw [lines, List.getElem?_cons_succ, ih, List.getElem?_cons_succ, haddress]

theorem textColumn_line (address w : Word) :
    textColumn (line address w) = (Instruction.decode w).text := by
  have haddress : ' ' ∉ (Hex.numeral 3 address.toNat).toList := Hex.notMem_numeral (by decide)
  have hword : ' ' ∉ (Hex.numeral 4 w.toNat).toList := Hex.notMem_numeral (by decide)
  have hline : (line address w).toList = (Hex.numeral 3 address.toNat).toList ++
      ' ' :: ' ' :: ((Hex.numeral 4 w.toNat).toList ++
        ' ' :: ' ' :: (Instruction.decode w).text.toList) := by
    simp [line]
  rw [textColumn, hline, Statement.fromBlank_append haddress]
  change String.ofList ((Statement.fromBlank ((Hex.numeral 4 w.toNat).toList ++ _)).drop 2) = _
  rw [Statement.fromBlank_append hword]
  exact String.ofList_toList

theorem map_textColumn_lines (address : Word) (ws : List Word) :
    (lines address ws).map textColumn = ws.map fun w => (Instruction.decode w).text := by
  induction ws generalizing address with
  | nil => rfl
  | cons w ws ih => rw [lines, List.map_cons, List.map_cons, ih, textColumn_line]

theorem assemble_textColumns (rom : List Byte) :
    assemble ((disassemble rom).map textColumn) = some (padded rom) := by
  have hread : (Instruction.ofText? ∘ fun w => (Instruction.decode w).text) =
      fun w => pure (Instruction.decode w) :=
    funext fun w => Instruction.ofText?_text (Instruction.decode w)
  rw [disassemble, map_textColumn_lines, assemble, List.mapM_map, hread, List.mapM_pure]
  have hencode : (words rom).flatMap (fun w => (Instruction.decode w).encode.bytes) =
      (words rom).flatMap Word.bytes := by
    simp only [Instruction.encode_decode]
  rw [Option.pure_def, Option.map_some, List.flatMap_map, hencode, flatMap_words]

/-- A line shows the word number `k` of a program. -/
structure Shows (rom : List Byte) (k : Nat) (line address word : String) (w : Word) : Prop where
  /-- The word is made of two bytes, or of the last byte and a zero. -/
  word_eq : w.toNat = 0x100 * (rom.getD (2 * k) 0).toNat + (rom.getD (2 * k + 1) 0).toNat
  /-- Address, word and assembly text stand side by side. -/
  columns : line = address ++ "  " ++ word ++ "  " ++ (Instruction.decode w).text
  /-- The assembly text can be told from the rest of the line. -/
  column_text : textColumn line = (Instruction.decode w).text
  /-- The address is where the word is after the program has been loaded. -/
  address_spelt : Hex.Spells 3 (0x200 + 2 * k) address
  /-- The word is written in hexadecimal. -/
  word_spelt : Hex.Spells 4 w.toNat word
  /-- It takes four digits. -/
  length_word : word.length = 4

theorem getElem?_disassemble (rom : List Byte) {k : Nat} (hk : k < (rom.length + 1) / 2) :
    (disassemble rom)[k]? = some (line (place k) (word rom k)) := by
  rw [disassemble, getElem?_lines, getElem?_words rom (by rwa [length_words])]
  rfl

/-- As long as all of its addresses are words, the lines of a program show its words. -/
theorem shows_line {rom : List Byte} (hlength : rom.length ≤ 65024) {k : Nat}
    (hk : k < (rom.length + 1) / 2) :
    Shows rom k (line (place k) (word rom k)) (Hex.numeral 3 (place k).toNat)
      (Hex.numeral 4 (word rom k).toNat) (word rom k) where
  word_eq := Word.toNat_ofBytes _ _
  columns := rfl
  column_text := textColumn_line _ _
  address_spelt := by
    rw [toNat_place (by omega)]
    exact Hex.spells_numeral (by decide) _
  word_spelt := Hex.spells_numeral (by decide) _
  length_word := Hex.length_numeral_of_lt (by decide) (word rom k).isLt

theorem exists_shows {rom : List Byte} (hlength : rom.length ≤ 65024) {k : Nat}
    (hk : k < (rom.length + 1) / 2) :
    ∃ line address word w, (disassemble rom)[k]? = some line ∧ Shows rom k line address word w :=
  ⟨_, _, _, _, getElem?_disassemble rom hk, shows_line hlength hk⟩

/-- **The assembly text alone determines the program.** A program is shown word by word, with
address and word in hexadecimal. No two words have the same text, so the texts can be assembled,
and that gives the program back; programs with the same texts are the same, except that one of them
may lack a zero at its end. -/
theorem assemble_disassemble :
    (∀ rom : List Byte, rom.length ≤ 65024 →
      (disassemble rom).length = (rom.length + 1) / 2 ∧
        ∀ k < (rom.length + 1) / 2, ∃ line address word w,
          (disassemble rom)[k]? = some line ∧ Shows rom k line address word w) ∧
    (∀ v w : Word, (Instruction.decode v).text = (Instruction.decode w).text → v = w) ∧
    (∀ rom : List Byte, assemble ((disassemble rom).map textColumn) = some (padded rom)) ∧
    ∀ rom rom' : List Byte,
      (disassemble rom).map textColumn = (disassemble rom').map textColumn →
        padded rom = padded rom' := by
  refine ⟨fun rom hlength => ⟨?_, fun k hk => exists_shows hlength hk⟩,
    fun v w => Instruction.text_decode_injective, assemble_textColumns, fun rom rom' h => ?_⟩
  · rw [disassemble, length_lines, length_words]
  · refine Option.some.inj ?_
    rw [← assemble_textColumns, h, assemble_textColumns]

/-- A program of an odd number of bytes, which is shown as if there were a zero behind it. -/
theorem assemble_disassemble_odd :
    let rom : List Byte := [0x00, 0xE0, 0xA2, 0x2A, 0x60]
    let lines := ["200  00E0  CLS", "202  A22A  LD I, 0x22A", "204  6000  LD V0, 0x00"]
    disassemble rom = lines ∧ (disassemble rom).length = 3 ∧
      (∃ line address word w, (disassemble rom)[2]? = some line ∧
        Shows rom 2 line address word w) ∧
      padded [0x00, 0xE0, 0xA2, 0x2A, 0x60, 0x00] = padded rom := by
  intro rom lines
  obtain ⟨hshows, -, -, hsame⟩ := assemble_disassemble
  obtain ⟨hlength, hlines⟩ := hshows rom (by decide)
  exact ⟨by decide, hlength.trans (by decide), hlines 2 (by decide), hsame _ _ (by decide)⟩

end Rom

end ChipEight
