/-
The code listing: one row for each instruction of a chunk, under a heading.

A row shows the offset, the source line or a bar if the byte before comes from the same
line, and the instruction.  Bytes that are no instruction get a row of their own, and so
does an instruction whose operand is missing.
-/
import Reckon.Chunk.Basic
import Reckon.Decimal.Layout

namespace Reckon.Chunk

/-- The column of the source line at an offset. -/
def lineColumn (c : Chunk) (offset : Nat) : String :=
  let line := (c.lineAt? offset).getD 0
  if 0 < offset ∧ c.lineAt? (offset - 1) = some line then "   |"
  else Text.flushRight 4 (toString line)

/-- The text of a constant, by its number. -/
def constantText (c : Chunk) (index : Nat) : String :=
  match c.constantAt? index with
  | some value => Decimal.Layout.plain.text value
  | none => "<invalid>"

/-- The instruction at an offset, and the number of bytes it takes up. -/
def instruction (c : Chunk) (offset : Nat) : String × Nat :=
  match c.byteAt? offset with
  | none => ("<end of code>", 1)
  | some byte =>
    match Opcode.ofByte? byte with
    | some .constant =>
      let name := Text.flushLeft 16 Opcode.constant.mnemonic
      match c.byteAt? (offset + 1) with
      | some index =>
        (name ++ " " ++ Text.flushRight 4 (toString index.toNat)
          ++ " '" ++ c.constantText index.toNat ++ "'", 2)
      | none => (name ++ " <missing operand>", 2)
    | some op => (op.mnemonic, 1)
    | none => ("Unknown opcode " ++ toString byte.toNat, 1)

/-- The row of the instruction at an offset. -/
def listingRow (c : Chunk) (offset : Nat) : String :=
  Text.zeroFilled 4 offset ++ " " ++ c.lineColumn offset ++ " " ++ (c.instruction offset).1

/-- The offset of the instruction after the one at an offset. -/
def nextOffset (c : Chunk) (offset : Nat) : Nat :=
  offset + (c.instruction offset).2

theorem lt_nextOffset (c : Chunk) (offset : Nat) : offset < c.nextOffset offset := by
  unfold nextOffset instruction
  split
  · simp
  · split
    · split <;> simp
    · simp
    · simp

/-- The offsets of the instructions from a given one on. -/
def offsetsFrom (c : Chunk) (offset : Nat) : List Nat :=
  if offset < c.size then offset :: c.offsetsFrom (c.nextOffset offset) else []
termination_by c.size - offset
decreasing_by
  have := c.lt_nextOffset offset
  omega

/-- The listing of a chunk under a name. -/
def listing (c : Chunk) (name : String) : String :=
  Text.rows (("== " ++ name ++ " ==") :: (c.offsetsFrom 0).map c.listingRow)

end Reckon.Chunk
