/-
# The listing of a chunk can be read back

A row of a listing shows an offset, a line or a bar, a mnemonic and, for a constant, its
number and its value.  `Listing.read?` takes the rows at their word: it checks that every
offset is the number of bytes above, takes a bar for the line of the row above, and puts the
bytes of the instructions together.

Of an assembled chunk it finds all code again (`listing_read_back`).  There are two halves.
The rows show the instructions one by one (`read?_listingRows`), where the listing compares
the line of an instruction with that of the byte before; since all bytes of an instruction
are on one line, this is the line of the row above.  And the rows of instructions say what
the instructions are (`assemble_rowsFrom`).

No row has a newline in it: the only text that is not fixed is the value of a constant, and
a number is written with digits, a sign and a point (`isNumber_plain`).
-/
import Reckon.Proofs.Chunk.Assembly
import Reckon.Proofs.Machine.Decoding

namespace Reckon

theorem Chunk.isInline_constantText (c : Chunk) (index : Nat) :
    Text.isInline (c.constantText index) = true := by
  unfold constantText
  split
  · exact (Decimal.isNumber_plain _).isInline
  · rfl

/-! ## Reading a listing -/

/-- The instruction with a given name in listings. -/
def Opcode.ofMnemonic? (name : List Char) : Option Opcode :=
  [constant, ret, add, subtract, multiply, divide, negate].find? (·.mnemonic.toList = name)

theorem Opcode.ofMnemonic?_mnemonic (op : Opcode) : ofMnemonic? op.mnemonic.toList = some op := by
  cases op <;> decide

namespace Listing

/-- What a row says. -/
structure Row where
  offset : Nat
  /-- The source line, or nothing for a bar. -/
  line : Option Nat
  op : Opcode
  operand : List UInt8

/-- Reads the column of the source line. -/
def line? (word : List Char) : Option (Option Nat) :=
  if word = ['|'] then some none else (Text.digits? word).map some

/-- Reads a byte. -/
def byte? (word : List Char) : Option UInt8 :=
  ((Text.digits? word).filter (· < UInt8.size)).map UInt8.ofNat

/-- Reads the operand of an instruction off the words after its mnemonic; the value of the
constant is not looked at. -/
def operand? (op : Opcode) (words : List (List Char)) : Option (List UInt8) :=
  match op.operandSize, words with
  | 0, [] => some []
  | 1, index :: _ => (byte? index).map ([·])
  | _, _ => none

/-- Reads a row by its words. -/
def Row.read? (row : String) : Option Row :=
  match Text.words row.toList with
  | offset :: line :: name :: rest => do
    let offset ← Text.digits? offset
    let line ← line? line
    let op ← Opcode.ofMnemonic? name
    let operand ← operand? op rest
    return ⟨offset, line, op, operand⟩
  | _ => none

/-- The code that rows say, if they start at an offset below a row of a given line.  A bar
repeats that line, and every offset has to be the right one. -/
def assemble : (offset : Nat) → (above : Option Nat) → List Row → Option (List CodeByte)
  | _, _, [] => some []
  | offset, above, row :: below =>
    if row.offset = offset then do
      let line ← row.line <|> above
      let code := ⟨row.op.toByte, line⟩ :: row.operand.map (⟨·, line⟩)
      let rest ← assemble (offset + code.length) (some line) below
      return code ++ rest
    else none

/-- Reads the code off a listing: all lines but the heading. -/
def read? (listing : String) : Option (List CodeByte) := do
  let rows ← (Text.lines listing).tail.mapM Row.read?
  assemble 0 none rows

/-! ## Rows of instructions -/

open Chunk (Instruction)

/-- The row of an instruction at an offset, below a row of a given line. -/
def Row.ofInstruction (offset : Nat) (above : Option Nat) (i : Instruction) : Row :=
  ⟨offset, if above = some i.line then none else some i.line, i.op, i.operand⟩

/-- The rows of instructions that start at an offset. -/
def rowsFrom : (offset : Nat) → (above : Option Nat) → List Instruction → List Row
  | _, _, [] => []
  | offset, above, i :: rest =>
    .ofInstruction offset above i :: rowsFrom (offset + i.code.length) (some i.line) rest

theorem length_rowsFrom (is : List Instruction) (offset : Nat) (above : Option Nat) :
    (rowsFrom offset above is).length = is.length := by
  induction is generalizing offset above with
  | nil => rfl
  | cons i is ih => exact congrArg (· + 1) (ih _ _)

/-- A bar stands for the line of the row above, so no line is lost. -/
theorem line_ofInstruction (offset : Nat) (above : Option Nat) (i : Instruction) :
    ((Row.ofInstruction offset above i).line <|> above) = some i.line := by
  unfold Row.ofInstruction
  split
  · next habove => exact habove
  · rfl

theorem assemble_rowsFrom (is : List Instruction) (offset : Nat) (above : Option Nat) :
    assemble offset above (rowsFrom offset above is) = some (is.flatMap Instruction.code) := by
  induction is generalizing offset above with
  | nil => rfl
  | cons i is ih =>
      have hoffset : (Row.ofInstruction offset above i).offset = offset := rfl
      have hline := line_ofInstruction offset above i
      have hrest := ih (offset + i.code.length) (some i.line)
      rw [rowsFrom, assemble, if_pos hoffset, hline]
      show (assemble (offset + i.code.length) (some i.line) _).bind (some <| i.code ++ ·) = _
      rw [hrest]
      rfl

/-! ## The columns of a row -/

section
variable {c : Chunk} {before after : List CodeByte} {i : Instruction}

/-- `Has c before i after`: the code is the instruction `i` between two stretches of bytes. -/
def Has (c : Chunk) (before : List CodeByte) (i : Instruction) (after : List CodeByte) : Prop :=
  c.code.toList = before ++ (i.code ++ after)

theorem Has.byteAt? (h : Has c before i after) :
    c.byteAt? before.length = some i.op.toByte := by
  rw [Chunk.byteAt?, ← Array.getElem?_toList, h, List.getElem?_append_right (Nat.le_refl _),
    Nat.sub_self]
  rfl

theorem Has.operandAt? (h : Has c before i after) {index : UInt8} (hoperand : i.operand = [index]) :
    c.byteAt? (before.length + 1) = some index := by
  rw [Chunk.byteAt?, ← Array.getElem?_toList, h,
    List.getElem?_append_right (Nat.le_add_right _ _), Nat.add_sub_cancel_left, Instruction.code,
    hoperand]
  rfl

theorem Has.lineAt? (h : Has c before i after) : c.lineAt? before.length = some i.line := by
  rw [Chunk.lineAt?, ← Array.getElem?_toList, h, List.getElem?_append_right (Nat.le_refl _),
    Nat.sub_self]
  rfl

/-- The listing looks at the line of the byte before an instruction, if there is one. -/
theorem Has.shows_bar_iff (h : Has c before i after) :
    (0 < before.length ∧ c.lineAt? (before.length - 1) = some i.line) ↔
      before.getLast?.map CodeByte.line = some i.line := by
  cases hlast : before.getLast? with
  | none =>
      rw [List.getLast?_eq_none_iff] at hlast
      subst hlast
      constructor
      · intro hbar
        exact absurd hbar.1 (Nat.lt_irrefl 0)
      · intro hbar
        cases hbar
  | some b =>
      have hpos : 0 < before.length := by
        rw [List.length_pos_iff]
        intro hnil
        rw [hnil] at hlast
        cases hlast
      have hline : c.lineAt? (before.length - 1) = some b.line := by
        rw [Chunk.lineAt?, ← Array.getElem?_toList, h,
          List.getElem?_append_left (Nat.sub_lt hpos Nat.one_pos), ← List.getLast?_eq_getElem?,
          hlast]
        rfl
      constructor
      · intro hbar
        exact hline.symm.trans hbar.2
      · intro hbar
        exact ⟨hpos, hline.trans hbar⟩

theorem Has.words_lineColumn (h : Has c before i after) :
    ∃ word, Text.words (c.lineColumn before.length).toList = [word] ∧
      line? word =
        some (Row.ofInstruction before.length (before.getLast?.map CodeByte.line) i).line := by
  simp only [Chunk.lineColumn, h.lineAt?, Option.getD_some, h.shows_bar_iff, Row.ofInstruction]
  split
  · refine ⟨['|'], ?_, rfl⟩
    decide
  · have hdigits := Text.digits?_toString i.line
    refine ⟨(toString i.line).toList, ?_, ?_⟩
    · rw [Text.words_flushRight]
      exact Text.words_of_digits? hdigits
    · have hbar : (toString i.line).toList ≠ ['|'] := by
        intro hbar
        rw [hbar] at hdigits
        cases hdigits
      rw [line?, if_neg hbar, hdigits]
      rfl

theorem byte?_toString (byte : UInt8) : byte? (toString byte.toNat).toList = some byte := by
  have hlt : byte.toNat < UInt8.size := byte.toNat_lt
  rw [byte?, Text.digits?_toString, Option.filter_some, if_pos (decide_eq_true hlt),
    Option.map_some, UInt8.ofNat_toNat]

/-- What the listing writes for an instruction with an operand. -/
theorem Has.instruction_constant (h : Has c before i after) (hop : i.op = .constant)
    {index : UInt8} (hoperand : i.operand = [index]) :
    (c.instruction before.length).1 =
      Text.flushLeft 16 i.op.mnemonic ++ " " ++ Text.flushRight 4 (toString index.toNat) ++ " "
        ++ ("'" ++ c.constantText index.toNat ++ "'") := by
  have hquote : " '" = " " ++ "'" := rfl
  simp only [Chunk.instruction, h.byteAt?, Opcode.ofByte?_toByte, hop, h.operandAt? hoperand,
    hquote, String.append_assoc]

/-- What the listing writes for an instruction without operand. -/
theorem Has.instruction_plain (h : Has c before i after) (hop : i.op ≠ .constant) :
    (c.instruction before.length).1 = i.op.mnemonic := by
  simp only [Chunk.instruction, h.byteAt?, Opcode.ofByte?_toByte]

theorem words_mnemonic (op : Opcode) : Text.words op.mnemonic.toList = [op.mnemonic.toList] := by
  refine Text.words_of_no_blank ?_ ?_
  · cases op <;> decide
  · cases op <;> decide

theorem Has.words_instruction (h : Has c before i after) :
    ∃ rest, Text.words (c.instruction before.length).1.toList = i.op.mnemonic.toList :: rest ∧
      operand? i.op rest = some i.operand := by
  obtain ⟨hop, index, hoperand⟩ | ⟨hop, hoperand⟩ := i.constant_or_plain
  · rw [h.instruction_constant hop hoperand, Text.words_columns, Text.words_columns,
      Text.words_flushLeft, Text.words_flushRight, words_mnemonic,
      Text.words_of_digits? (Text.digits?_toString _)]
    refine ⟨_, rfl, ?_⟩
    rw [hop, hoperand]
    show (byte? (toString index.toNat).toList).map ([·]) = some [index]
    rw [byte?_toString]
    rfl
  · rw [h.instruction_plain hop, words_mnemonic]
    refine ⟨[], rfl, ?_⟩
    rw [hoperand]
    cases hcode : i.op with
    | constant => exact absurd hcode hop
    | _ => rfl

/-- A row is read back as what the instruction is, with a bar where the line repeats. -/
theorem Has.read?_listingRow (h : Has c before i after) :
    Row.read? (c.listingRow before.length) =
      some (.ofInstruction before.length (before.getLast?.map CodeByte.line) i) := by
  obtain ⟨line, hline, hline?⟩ := h.words_lineColumn
  obtain ⟨rest, hrest, hoperand⟩ := h.words_instruction
  have hoffset := Text.digits?_zeroFilled 4 before.length
  have hwords : Text.words (c.listingRow before.length).toList =
      (Text.zeroFilled 4 before.length).toList :: line :: i.op.mnemonic.toList :: rest := by
    rw [Chunk.listingRow, Text.words_columns, Text.words_columns, hline, hrest,
      Text.words_of_digits? hoffset]
    rfl
  simp [Row.read?, hwords, hoffset, hline?, Opcode.ofMnemonic?_mnemonic, hoperand,
    Row.ofInstruction]

theorem Has.nextOffset (h : Has c before i after) :
    c.nextOffset before.length = (before ++ i.code).length := by
  rw [Chunk.nextOffset_of_byteAt? h.byteAt?, Opcode.ofByte?_toByte, List.length_append,
    i.length_code, Nat.add_assoc]
  rfl

theorem line_getLast?_code (before : List CodeByte) (i : Instruction) :
    (before ++ i.code).getLast?.map CodeByte.line = some i.line := by
  obtain ⟨_, index, hoperand⟩ | ⟨_, hoperand⟩ := i.constant_or_plain
  · simp [Instruction.code, hoperand]
  · simp [Instruction.code, hoperand]

end

/-- The rows of a listing, from one offset on, show the instructions from there on. -/
theorem read?_listingRows {c : Chunk} (is : List Instruction) (before : List CodeByte)
    (h : c.code.toList = before ++ is.flatMap Instruction.code) :
    ((c.offsetsFrom before.length).map c.listingRow).map Row.read? =
      (rowsFrom before.length (before.getLast?.map CodeByte.line) is).map some := by
  have hsize : c.size = (before ++ is.flatMap Instruction.code).length := by
    rw [← h]
    rfl
  induction is generalizing before with
  | nil =>
      rw [List.flatMap_nil, List.append_nil] at hsize
      rw [Chunk.offsetsFrom_of_le (Nat.le_of_eq hsize)]
      rfl
  | cons i is ih =>
      have hhas : Has c before i (is.flatMap Instruction.code) := h
      have hlt : before.length < c.size := by
        rw [hsize, List.flatMap_cons, List.length_append, List.length_append, i.length_code]
        omega
      have hassoc : before ++ (i :: is).flatMap Instruction.code =
          before ++ i.code ++ is.flatMap Instruction.code := by
        rw [List.flatMap_cons, List.append_assoc]
      have hbelow := ih (before ++ i.code) (h.trans hassoc) (hsize.trans (congrArg _ hassoc))
      rw [line_getLast?_code] at hbelow
      rw [Chunk.offsetsFrom_of_lt hlt, hhas.nextOffset, List.map_cons, List.map_cons,
        hhas.read?_listingRow, hbelow, List.length_append]
      rfl

theorem mapM_of_map_eq {α β : Type} {f : α → Option β} {xs : List α} {ys : List β}
    (h : xs.map f = ys.map some) : xs.mapM f = some ys := by
  induction ys generalizing xs with
  | nil =>
      rw [List.map_eq_nil_iff.mp h]
      rfl
  | cons y ys ih =>
      obtain ⟨x, xs, rfl, hx, hxs⟩ := List.map_eq_cons_iff.mp h
      rw [List.mapM_cons, hx, ih hxs]
      rfl

end Listing

/-! ## Lines of a listing -/

namespace Chunk

theorem isInline_mnemonic (op : Opcode) : Text.isInline op.mnemonic = true := by
  cases op <;> rfl

theorem isInline_instruction (c : Chunk) (offset : Nat) :
    Text.isInline (c.instruction offset).1 = true := by
  have hblank : Text.isInline " " = true := rfl
  have hopen : Text.isInline " '" = true := rfl
  have hclose : Text.isInline "'" = true := rfl
  have hmissing : Text.isInline " <missing operand>" = true := rfl
  have hunknown : Text.isInline "Unknown opcode " = true := rfl
  unfold instruction
  split
  · rfl
  · split
    · split
      · simp [isInline_mnemonic, isInline_constantText, hblank, hopen, hclose]
      · simp [isInline_mnemonic, hmissing]
    · exact isInline_mnemonic _
    · simp [hunknown]

theorem isInline_listingRow (c : Chunk) (offset : Nat) :
    Text.isInline (c.listingRow offset) = true := by
  have hblank : Text.isInline " " = true := rfl
  have hcolumn : Text.isInline (c.lineColumn offset) = true := by
    unfold lineColumn
    simp only
    split
    · rfl
    · simp
  simp [listingRow, hblank, hcolumn, isInline_instruction]

theorem isRow_heading {name : String} (h : '\n' ∉ name.toList) :
    Text.IsRow ("== " ++ name ++ " ==").toList := by
  have hlist : ("== " ++ name ++ " ==").toList =
      ('=' :: '=' :: ' ' :: name.toList) ++ [' ', '=', '='] := by
    simp
  rw [hlist]
  refine ⟨?_, ?_⟩
  · intro hmem
    simp [h] at hmem
  · rw [List.getLast?_append]
    intro hlast
    cases hlast

/-- The lines of a listing are its heading and its rows. -/
theorem lines_listing (c : Chunk) {name : String} (h : '\n' ∉ name.toList) :
    Text.lines (c.listing name) =
      ("== " ++ name ++ " ==") :: (c.offsetsFrom 0).map c.listingRow := by
  refine Text.lines_rows ?_
  intro row hrow
  rcases List.mem_cons.mp hrow with rfl | hrow
  · exact isRow_heading h
  · obtain ⟨offset, _, rfl⟩ := List.mem_map.mp hrow
    exact Text.isRow_of_isInline (c.isInline_listingRow offset)

/-- Let whole edits build a chunk, and let the name in the heading have no newline.  Then the
listing has the heading and one row for each instruction, and the code can be read back from it,
byte for byte and with every source line.  All compiled code is built this way. -/
theorem listing_read_back {name : String} (hname : '\n' ∉ name.toList) :
    (∀ edits : List Edit, (∀ e ∈ edits, e.isWhole = true) →
      let c := (empty.editAll edits).result
      (Text.lines (c.listing name)).head? = some ("== " ++ name ++ " ==") ∧
        (Text.lines (c.listing name)).tail.length = (instructions edits).length ∧
        Listing.read? (c.listing name) = some c.code.toList) ∧
      ∀ (o : Options) (source : String) (c : Chunk),
        (compile o source).result = .ok c → c.Assembled := by
  refine ⟨?_, fun _ _ _ => assembled_of_compile⟩
  intro edits hedits c
  have hcode : c.code.toList = [] ++ (instructions edits).flatMap Instruction.code := by
    rw [← code_of_whole hedits]
    exact code_editAll edits empty
  have hlines := c.lines_listing hname
  have hrows : ((c.offsetsFrom 0).map c.listingRow).map Listing.Row.read? =
      (Listing.rowsFrom 0 none (instructions edits)).map some :=
    Listing.read?_listingRows _ [] hcode
  refine ⟨?_, ?_, ?_⟩
  · rw [hlines]
    rfl
  · have hlength := congrArg List.length hrows
    rw [List.length_map, List.length_map (f := some), Listing.length_rowsFrom] at hlength
    rw [hlines]
    exact hlength
  · rw [Listing.read?, hlines, List.tail_cons, Listing.mapM_of_map_eq hrows, hcode]
    exact Listing.assemble_rowsFrom _ _ _

theorem listing_read_back_wide_columns :
    let edits : List Edit := [.constant 2.5, .opWith .constant 0 9999, .op .negate 9999,
      .opWith .constant 200 12345, .op .divide 0, .op .ret 0]
    let c := (empty.editAll edits).result
    '\n' ∉ "a\r".toList ∧ (∀ e ∈ edits, e.isWhole = true) ∧
      (Text.lines (c.listing "a\r")).tail.length = 5 ∧
      Listing.read? (c.listing "a\r") = some [⟨0, 9999⟩, ⟨0, 9999⟩, ⟨6, 9999⟩, ⟨0, 12345⟩,
        ⟨200, 12345⟩, ⟨5, 0⟩, ⟨1, 0⟩] ∧
      ∃ compiled, (compile {} "8/-2").result = .ok compiled ∧ compiled.Assembled := by
  intro edits c
  have hname : '\n' ∉ "a\r".toList := by decide
  have hedits : ∀ e ∈ edits, e.isWhole = true := by
    simp [edits, Edit.isWhole, Opcode.operandSize]
  have hclear : (Compile.State.finish "8/-2" 256).diagnostic = none := by decide +kernel
  have hcompiled : (compile {} "8/-2").result = .ok (Compile.State.finish "8/-2" 256).chunk := by
    rw [compile_result, hclear]
  obtain ⟨hbuilt, hassembled⟩ := listing_read_back hname
  obtain ⟨_, hrows, hcode⟩ := hbuilt edits hedits
  exact ⟨hname, hedits, hrows, hcode, _, hcompiled, hassembled _ _ _ hcompiled⟩

end Chunk

end Reckon
