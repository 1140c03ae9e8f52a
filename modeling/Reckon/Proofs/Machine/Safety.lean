/-
# No run goes wrong in a way that it does not report

Whatever bytes a chunk has, a run of it takes no more steps than there are bytes, never has
more on its stack than the limit allows, and ends (`runChunk_ends`).  When it ends with an
error, the error is true of the place where the run stopped (`trueAt_of_ends`): the code is
at its end, the constant does not exist, the stack is full or it is too low for the
instruction, and the blamed line is that of the instruction.
-/
import Reckon.Machine.Interpreter
import Reckon.Proofs.Machine.Path

namespace Reckon

open Machine

/-! ## Lines of a chunk -/

namespace Chunk

theorem lineAt?_of_byteAt? {c : Chunk} {offset : Nat} {byte : UInt8}
    (h : c.byteAt? offset = some byte) : c.lineAt? offset = some (blamedLine c offset) := by
  obtain ⟨code, hcode, _⟩ := Option.map_eq_some_iff.mp h
  have hline : c.lineAt? offset = some code.line := congrArg (Option.map CodeByte.line) hcode
  rw [blamedLine, hline]

/-- Where the code has no byte, the line of its last byte is blamed. -/
theorem blamedLine_of_byteAt? {c : Chunk} {offset : Nat} (h : c.byteAt? offset = none) :
    blamedLine c offset = c.lines.back?.getD 0 := by
  have hline : c.lineAt? offset = none :=
    congrArg (Option.map CodeByte.line) (Option.map_eq_none_iff.mp h)
  rw [blamedLine, hline]

/-- The last byte is blamed with the last line. -/
theorem blamedLine_last {c : Chunk} {offset : Nat} {byte : UInt8}
    (h : c.byteAt? offset = some byte) (hlast : c.size = offset + 1) :
    blamedLine c offset = c.lines.back?.getD 0 := by
  have hsize : c.lines.size = offset + 1 := by rw [lines, Array.size_map]; exact hlast
  have hback : c.lines.back? = c.lineAt? offset := by
    rw [Array.back?_eq_getElem?, hsize, Nat.add_sub_cancel, lines, Array.getElem?_map]
    rfl
  rw [hback, lineAt?_of_byteAt? h]
  rfl

end Chunk

/-! ## Errors and places -/

/-- `e.TrueAt limit c p`: what the error `e` says is so in a run of `c` that stops at `p`. -/
def RuntimeError.TrueAt (e : RuntimeError) (limit : Nat) (c : Chunk) (p : Place) : Prop :=
  match e.fault with
  | .unexpectedEnd offset => offset = c.size ∧ e.line = c.lines.back?.getD 0
  | .invalidConstant index =>
    c.byteAt? p.offset = some Opcode.constant.toByte ∧ c.lineAt? p.offset = some e.line ∧
      (c.byteAt? (p.offset + 1)).map UInt8.toNat = some index ∧
      c.constants.size ≤ index ∧ index ≤ 255
  | .stackOverflow capacity =>
    c.byteAt? p.offset = some Opcode.constant.toByte ∧ c.lineAt? p.offset = some e.line ∧
      capacity = limit ∧ p.stack.length = limit
  | .stackUnderflow =>
    ∃ op : Opcode, c.byteAt? p.offset = some op.toByte ∧ c.lineAt? p.offset = some e.line ∧
      p.stack.length < op.takes

namespace Machine

variable {limit : Nat} {c : Chunk} {p : Place}

theorem trueAt_of_fails {op : Opcode} {fault : RuntimeFault}
    (hbyte : c.byteAt? p.offset = some op.toByte)
    (h : Fails limit c (p.offset + 1) p.stack op fault) :
    RuntimeError.TrueAt ⟨fault, blamedLine c p.offset⟩ limit c p := by
  have hline := Chunk.lineAt?_of_byteAt? hbyte
  cases h with
  | missing hnone =>
      -- The code ends with this instruction, so its line is the last one.
      have hlast : c.size = p.offset + 1 :=
        Nat.le_antisymm (size_le_of_byteAt? hnone) (lt_size_of_byteAt? hbyte)
      exact ⟨hlast.symm, Chunk.blamedLine_last hbyte hlast⟩
  | @invalid index hindex hvalue =>
      refine ⟨hbyte, hline, by rw [hindex]; rfl, ?_, Nat.le_of_lt_succ index.toNat_lt⟩
      exact Array.getElem?_eq_none_iff.mp hvalue
  | overflow hfull => exact ⟨hbyte, hline, rfl, hfull⟩
  | underflow hlow => exact ⟨_, hbyte, hline, hlow⟩

/-- The error at the end of a run is true of the place where the run ends. -/
theorem trueAt_of_ends {e : RuntimeError} (h : Ends limit c p (.error e))
    (hroom : p.stack.length ≤ limit) (hp : p.offset ≤ c.size) : e.TrueAt limit c p := by
  cases h with
  | past hbyte =>
      exact ⟨Nat.le_antisymm hp (size_le_of_byteAt? hbyte), Chunk.blamedLine_of_byteAt? hbyte⟩
  | fault hbyte hop hstep =>
      cases does_of_step hstep hroom with
      | fails hfails =>
          rw [← Opcode.toByte_of_ofByte? hop] at hbyte
          exact trueAt_of_fails hbyte hfails

theorem stack_of_ends {value : Float} {left : List Float} (h : Ends limit c p (.ok (value, left)))
    (hroom : p.stack.length ≤ limit) : p.stack = value :: left := by
  cases h with
  | halt _ _ hstep =>
      cases does_of_step hstep hroom with
      | halts hstack => exact hstack

end Machine

/-- A run of any bytes takes at most as many steps as there are bytes, with a stack within the
limit at every step.  It ends with a value or with an error; an error is true of the place where
the run ends, and leaves an empty stack. -/
theorem runChunk_ends (i : Interpreter) (c : Chunk) :
    (∀ passed p, Path i.options.stackMax c ⟨0, []⟩ passed p →
      passed.length ≤ c.size ∧ p.stack.length ≤ i.options.stackMax) ∧
    ∃ passed last r, Path i.options.stackMax c ⟨0, []⟩ passed last ∧
      Ends i.options.stackMax c last r ∧
      match r with
      | .ok (value, left) =>
        (i.runChunk c).1.result = .ok value ∧ (i.runChunk c).2.stack = left ∧
          left.length < i.options.stackMax
      | .error e =>
        (i.runChunk c).1.result = .error (.runtime e) ∧ (i.runChunk c).2.stack = [] ∧
          e.TrueAt i.options.stackMax c last := by
  have hstart : (⟨0, []⟩ : Place).stack.length ≤ i.options.stackMax := Nat.zero_le _
  have hwithin : ∀ {passed p}, Path i.options.stackMax c ⟨0, []⟩ passed p →
      passed.length ≤ p.offset ∧ p.offset ≤ c.size ∧ p.stack.length ≤ i.options.stackMax := by
    intro passed p hpath
    obtain ⟨hlength, hsize⟩ := hpath.length_le hstart (Nat.zero_le _)
    rw [Nat.zero_add] at hlength
    exact ⟨hlength, hsize, hpath.height hstart p (by simp)⟩
  refine ⟨fun passed p hpath => ?_, ?_⟩
  · obtain ⟨hlength, hsize, hheight⟩ := hwithin hpath
    exact ⟨Nat.le_trans hlength hsize, hheight⟩
  · obtain ⟨passed, last, r, hpath, hends, hrun⟩ := exists_path i.options c ⟨0, []⟩
    obtain ⟨_, hsize, hheight⟩ := hwithin hpath
    refine ⟨passed, last, r, hpath, hends, ?_⟩
    simp only [Interpreter.runChunk_eq, execute, executeFrom, hrun]
    cases r with
    | ok pair =>
        obtain ⟨value, left⟩ := pair
        rw [stack_of_ends hends hheight] at hheight
        exact ⟨rfl, rfl, hheight⟩
    | error e => exact ⟨rfl, rfl, trueAt_of_ends hends hheight hsize⟩

end Reckon
