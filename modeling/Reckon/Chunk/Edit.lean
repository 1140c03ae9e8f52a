/-
Building chunks, with the notes about their growth.

An edit adds one byte, an instruction or a constant.  Whatever the edits, bytes and
constants only come at the end, and each time the code outgrows its capacity there is one
note.
-/
import Reckon.Chunk.Basic
import Reckon.Event

namespace Reckon.Chunk

/-- The note about growing for one more byte, if the chunk is full. -/
def growthEvents (c : Chunk) : List Event :=
  match c.growth? with
  | some (before, after) => [.note (.chunkGrew before after)]
  | none => []

/-- Something that is added to a chunk. -/
inductive Edit where
  | byte (byte : UInt8) (line : Nat)
  | op (op : Opcode) (line : Nat)
  | opWith (op : Opcode) (operand : UInt8) (line : Nat)
  | constant (value : Float)

/-- The bytes that an edit adds. -/
def Edit.code : Edit → List CodeByte
  | byte b line => [⟨b, line⟩]
  | op o line => [⟨o.toByte, line⟩]
  | opWith o operand line => [⟨o.toByte, line⟩, ⟨operand, line⟩]
  | constant _ => []

/-- The constants that an edit adds. -/
def Edit.values : Edit → List Float
  | constant value => [value]
  | _ => []

/-- Writes bytes one by one. -/
def writeAll (c : Chunk) : List CodeByte → Traced Chunk
  | [] => ⟨c, []⟩
  | b :: rest =>
    let grown := c.growthEvents
    let written := (c.write b.byte b.line).writeAll rest
    ⟨written.result, grown ++ written.events⟩

/-- Adds something to a chunk. -/
def edit (c : Chunk) (e : Edit) : Traced Chunk :=
  (e.values.foldl addConstant c).writeAll e.code

/-- The place in the pool that an edit takes, if it adds a constant: the last one after it. -/
def placed? (c : Chunk) (e : Edit) : Option Nat :=
  match e with
  | .constant _ => some ((c.edit e).result.constants.size - 1)
  | _ => none

/-- Adds one thing after another to a chunk. -/
def editAll (c : Chunk) : List Edit → Traced Chunk
  | [] => ⟨c, []⟩
  | e :: rest =>
    let first := c.edit e
    let following := first.result.editAll rest
    ⟨following.result, first.events ++ following.events⟩

end Reckon.Chunk
