/-
# Chunks of whole instructions

Edits are free to write any bytes.  An edit is whole if it adds a constant or an instruction
with all of its operand; a chunk that whole edits build from nothing is assembled.  Its code
is that of its instructions one after another (`code_of_whole`), so its bytes can be told
apart again.

The compiler writes whole instructions only, whatever it reads, and also while it complains
(`kept_assembled`).  So what it returns is assembled (`assembled_of_compile`).
-/
import Reckon.Proofs.Compile.Language

namespace Reckon

namespace Chunk

/-! ## Edits one after another -/

theorem code_writeAll (bs : List CodeByte) (c : Chunk) :
    (c.writeAll bs).result.code.toList = c.code.toList ++ bs := by
  induction bs generalizing c with
  | nil => exact (List.append_nil _).symm
  | cons b bs ih =>
      have hrest := ih (c.write b.byte b.line)
      rw [code_write, List.append_assoc] at hrest
      exact hrest

theorem code_addConstants (values : List Float) (c : Chunk) :
    (values.foldl addConstant c).code = c.code := by
  induction values generalizing c with
  | nil => rfl
  | cons value values ih => exact ih (c.addConstant value)

theorem code_edit (c : Chunk) (e : Edit) :
    (c.edit e).result.code.toList = c.code.toList ++ e.code := by
  rw [edit, code_writeAll, code_addConstants]

theorem code_editAll (edits : List Edit) (c : Chunk) :
    (c.editAll edits).result.code.toList = c.code.toList ++ edits.flatMap Edit.code := by
  induction edits generalizing c with
  | nil => exact (List.append_nil _).symm
  | cons e edits ih =>
      have hrest := ih (c.edit e).result
      rw [code_edit, List.append_assoc] at hrest
      exact hrest

theorem result_editAll_append (first following : List Edit) (c : Chunk) :
    (c.editAll (first ++ following)).result =
      ((c.editAll first).result.editAll following).result := by
  induction first generalizing c with
  | nil => rfl
  | cons e first ih => exact ih (c.edit e).result

/-! ## Whole instructions -/

/-- An instruction with its operand, if it takes one, and its source line. -/
structure Instruction where
  op : Opcode
  operand : List UInt8
  line : Nat
  whole : operand.length = op.operandSize

/-- The bytes of an instruction, all on its line. -/
def Instruction.code (i : Instruction) : List CodeByte :=
  ⟨i.op.toByte, i.line⟩ :: i.operand.map (⟨·, i.line⟩)

/-- Only the instruction that pushes a constant has an operand. -/
theorem Instruction.constant_or_plain (i : Instruction) :
    (i.op = .constant ∧ ∃ index, i.operand = [index]) ∨ (i.op ≠ .constant ∧ i.operand = []) := by
  have hwhole := i.whole
  by_cases hop : i.op = .constant
  · rw [hop] at hwhole
    exact .inl ⟨hop, List.length_eq_one_iff.mp hwhole⟩
  · have hsize : i.op.operandSize = 0 := by
      cases hcode : i.op with
      | constant => exact absurd hcode hop
      | _ => rfl
    rw [hsize] at hwhole
    exact .inr ⟨hop, List.length_eq_zero_iff.mp hwhole⟩

theorem Instruction.length_code (i : Instruction) : i.code.length = 1 + i.op.operandSize := by
  rw [code, List.length_cons, List.length_map, i.whole, Nat.add_comm]

/-- The instruction that an edit adds, if it adds all of one. -/
def Edit.instruction? : Edit → Option Instruction
  | op o line => if h : 0 = o.operandSize then some ⟨o, [], line, h⟩ else none
  | opWith o operand line =>
    if h : 1 = o.operandSize then some ⟨o, [operand], line, h⟩ else none
  | _ => none

/-- Whether an edit adds a constant, an instruction without operand or one with its operand. -/
def Edit.isWhole : Edit → Bool
  | byte _ _ => false
  | op o _ => o.operandSize = 0
  | opWith o _ _ => o.operandSize = 1
  | constant _ => true

theorem Edit.code_of_isWhole {e : Edit} (h : e.isWhole = true) :
    e.code = e.instruction?.toList.flatMap Instruction.code := by
  cases e with
  | byte b line => cases h
  | op o line =>
      have hsize : o.operandSize = 0 := of_decide_eq_true h
      simp [instruction?, hsize, code, Instruction.code]
  | opWith o operand line =>
      have hsize : o.operandSize = 1 := of_decide_eq_true h
      simp [instruction?, hsize, code, Instruction.code]
  | constant value => rfl

/-- The instructions that edits add, in order. -/
def instructions (edits : List Edit) : List Instruction :=
  edits.filterMap Edit.instruction?

/-- Whole edits write the code of their instructions. -/
theorem code_of_whole {edits : List Edit} (h : ∀ e ∈ edits, e.isWhole = true) :
    edits.flatMap Edit.code = (instructions edits).flatMap Instruction.code := by
  induction edits with
  | nil => rfl
  | cons e edits ih =>
      have hfirst := Edit.code_of_isWhole (h e List.mem_cons_self)
      have hrest := ih fun e he => h e (List.mem_cons_of_mem _ he)
      rw [List.flatMap_cons, hfirst, hrest]
      cases hadded : e.instruction? with
      | none => simp [instructions, hadded]
      | some i => simp [instructions, hadded]

/-- The chunk is built from nothing by whole edits. -/
def Assembled (c : Chunk) : Prop :=
  ∃ edits : List Edit, (∀ e ∈ edits, e.isWhole = true) ∧ c = (empty.editAll edits).result

theorem Assembled.edit {c : Chunk} (h : c.Assembled) {e : Edit} (he : e.isWhole = true) :
    (c.edit e).result.Assembled := by
  obtain ⟨edits, hwhole, rfl⟩ := h
  refine ⟨edits ++ [e], ?_, ?_⟩
  · intro e' he'
    rcases List.mem_append.mp he' with he' | he'
    · exact hwhole e' he'
    · rw [List.mem_singleton.mp he']
      exact he
  · rw [result_editAll_append]
    rfl

end Chunk

/-! ## Compiled code -/

namespace Compile.State

theorem assembled_writeNumber {s : State} (h : s.chunk.Assembled) :
    s.writeNumber.chunk.Assembled := by
  unfold writeNumber writeConstant
  split
  · next value _ =>
    simp only
    split
    · rw [chunk_report]
      exact h
    · have hpooled := h.edit (e := .constant value) rfl
      exact hpooled.edit
        (e := .opWith .constant (UInt8.ofNat s.chunk.constants.size) s.previous.line) rfl
  · rw [chunk_report]
    exact h

/-- What is written so far is assembled, with or without a diagnostic. -/
theorem kept_assembled : Kept (fun s => s.chunk.Assembled) where
  advance := by
    intro s h
    rw [chunk_advance]
    exact h
  blame := by
    intro s c _ h
    rw [chunk_report]
    exact h
  blamePassed := by
    intro s h
    rw [chunk_report, chunk_advance]
    exact h
  writeOp := by
    intro s op line hsize h
    exact h.edit (e := .op op line) (decide_eq_true hsize)
  writeNumber := by
    intro s h _
    rw [← chunk_advance] at h
    exact assembled_writeNumber h

theorem assembled_finish (source : String) (maxNesting : Nat) :
    (finish source maxNesting).chunk.Assembled := by
  have hempty : Chunk.empty.Assembled := by
    refine ⟨[], ?_, rfl⟩
    intro e he
    cases he
  have hfirst : (start source).advance.chunk.Assembled := by
    rw [chunk_advance]
    exact hempty
  have hparsed := kept_assembled.parse maxNesting .assignment hfirst
  have hended := kept_assembled.consume hparsed .eof (c := .expectEnd) (by decide)
  exact kept_assembled.writeOp .ret _ rfl hended

end Compile.State

/-- Compiled code is assembled. -/
theorem assembled_of_compile {o : Options} {source : String} {c : Chunk}
    (h : (compile o source).result = .ok c) : c.Assembled := by
  obtain ⟨_, rfl⟩ := compile_eq_ok h
  exact Compile.State.assembled_finish source o.maxNesting

end Reckon
