/-
Chunks: compiled code.

A chunk is a row of bytes, each with the source line that it comes from, and a pool of
constants.  Both grow at the end only.  Their capacity is the room they claim: a full
chunk or pool claims twice as much, and at least eight places.
-/
import Reckon.Opcode

namespace Reckon

/-- The least capacity that is claimed. -/
def leastCapacity : Nat := 8

/-- The capacity claimed when `capacity` is used up. -/
def grownCapacity (capacity : Nat) : Nat :=
  if capacity < leastCapacity then leastCapacity else capacity * 2

/-- A pool of constants, numbered in the order in which they came. -/
structure Pool where
  values : Array Float
  capacity : Nat

namespace Pool

/-- The pool without constants. -/
def empty : Pool := ⟨#[], 0⟩

/-- Puts a constant at the end. -/
def push (p : Pool) (value : Float) : Pool :=
  let capacity := if p.values.size = p.capacity then grownCapacity p.capacity else p.capacity
  ⟨p.values.push value, capacity⟩

/-- The number of constants. -/
def size (p : Pool) : Nat := p.values.size

/-- The constant with a given number. -/
def get? (p : Pool) (index : Nat) : Option Float := p.values[index]?

end Pool

/-- A byte of code and the source line that it comes from. -/
structure CodeByte where
  byte : UInt8
  line : Nat
deriving DecidableEq, Repr

/-- Compiled code with its constants. -/
structure Chunk where
  code : Array CodeByte
  capacity : Nat
  constants : Pool

namespace Chunk

/-- The chunk without code and constants. -/
def empty : Chunk := ⟨#[], leastCapacity, Pool.empty⟩

/-- The number of code bytes. -/
def size (c : Chunk) : Nat := c.code.size

/-- The code bytes without their lines. -/
def bytes (c : Chunk) : Array UInt8 := c.code.map CodeByte.byte

/-- The source lines of the code bytes. -/
def lines (c : Chunk) : Array Nat := c.code.map CodeByte.line

/-- The code byte at an offset. -/
def byteAt? (c : Chunk) (offset : Nat) : Option UInt8 := c.code[offset]?.map CodeByte.byte

/-- The source line of the byte at an offset. -/
def lineAt? (c : Chunk) (offset : Nat) : Option Nat := c.code[offset]?.map CodeByte.line

/-- The constant with a given number. -/
def constantAt? (c : Chunk) (index : Nat) : Option Float := c.constants.get? index

/-- The capacities before and after the next byte, if the chunk has to grow for it. -/
def growth? (c : Chunk) : Option (Nat × Nat) :=
  if c.size = c.capacity then some (c.capacity, grownCapacity c.capacity) else none

/-- Puts a byte at the end. -/
def write (c : Chunk) (byte : UInt8) (line : Nat) : Chunk :=
  let capacity := if c.size = c.capacity then grownCapacity c.capacity else c.capacity
  { c with code := c.code.push ⟨byte, line⟩, capacity }

/-- Puts a constant at the end of the pool. -/
def addConstant (c : Chunk) (value : Float) : Chunk :=
  { c with constants := c.constants.push value }

@[simp]
theorem size_write (c : Chunk) (byte : UInt8) (line : Nat) :
    (c.write byte line).size = c.size + 1 := by
  simp [size, write]

end Chunk

end Reckon
