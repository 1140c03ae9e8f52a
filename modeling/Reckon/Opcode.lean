/-
Instructions of the stack machine.

An instruction is one byte.  `constant` is followed by a second byte, the number of the
constant that it pushes; the other instructions work on the stack alone.  Bytes from 7
on are no instructions.
-/

namespace Reckon

/-- An instruction. -/
inductive Opcode where
  | constant
  | ret
  | add
  | subtract
  | multiply
  | divide
  | negate
deriving DecidableEq, Repr

namespace Opcode

/-- The byte of an instruction. -/
def toByte : Opcode → UInt8
  | constant => 0
  | ret => 1
  | add => 2
  | subtract => 3
  | multiply => 4
  | divide => 5
  | negate => 6

/-- The instruction with a given byte. -/
def ofByte? (byte : UInt8) : Option Opcode :=
  match byte.toNat with
  | 0 => some constant
  | 1 => some ret
  | 2 => some add
  | 3 => some subtract
  | 4 => some multiply
  | 5 => some divide
  | 6 => some negate
  | _ => none

/-- The instruction's name in listings. -/
def mnemonic : Opcode → String
  | constant => "OP_CONSTANT"
  | ret => "OP_RETURN"
  | add => "OP_ADD"
  | subtract => "OP_SUBTRACT"
  | multiply => "OP_MULTIPLY"
  | divide => "OP_DIVIDE"
  | negate => "OP_NEGATE"

/-- The instruction's name as a variant of its type. -/
def variant : Opcode → String
  | constant => "Constant"
  | ret => "Return"
  | add => "Add"
  | subtract => "Subtract"
  | multiply => "Multiply"
  | divide => "Divide"
  | negate => "Negate"

/-- The number of bytes that follow the instruction. -/
def operandSize : Opcode → Nat
  | constant => 1
  | _ => 0

/-- Every instruction is found by its byte. -/
@[simp]
theorem ofByte?_toByte (op : Opcode) : ofByte? op.toByte = some op := by
  cases op <;> rfl

/-- A byte stands for at most one instruction. -/
theorem toByte_of_ofByte? {byte : UInt8} {op : Opcode} (h : ofByte? byte = some op) :
    op.toByte = byte := by
  unfold ofByte? at h
  apply UInt8.toNat_inj.mp
  split at h <;> cases h <;> simp_all [toByte]

end Opcode

end Reckon
