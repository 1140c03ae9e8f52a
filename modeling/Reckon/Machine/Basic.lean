/-
The stack machine.

The machine works through a chunk from its first byte on.  Numbers are pushed and
combined on a stack with a fixed limit; bytes that are no instruction are skipped.  A run
ends when a value is returned or a fault is met, and every step moves on in the code, so
it does end.  Stacks are lists with the top in front.
-/
import Reckon.Chunk.Listing
import Reckon.Event
import Reckon.Options
import Reckon.Precedence

namespace Reckon.Machine

/-- Puts a value on the stack, if the stack has room for it. -/
def push (limit : Nat) (value : Float) (stack : List Float) :
    Except RuntimeFault (List Float) :=
  if limit ≤ stack.length then .error (.stackOverflow limit) else .ok (value :: stack)

/-- Takes the top value off the stack. -/
def pop : List Float → Except RuntimeFault (Float × List Float)
  | [] => .error .stackUnderflow
  | value :: stack => .ok (value, stack)

/-- Applies an operator to the two values on top; the upper one is the right operand. -/
def combine (limit : Nat) (op : Operator) (stack : List Float) :
    Except RuntimeFault (List Float) := do
  let (b, stack) ← pop stack
  let (a, stack) ← pop stack
  push limit (op.apply a b) stack

/-- Changes the sign of the value on top. -/
def negate (limit : Nat) (stack : List Float) : Except RuntimeFault (List Float) := do
  let (value, stack) ← pop stack
  push limit (-value) stack

/-- Pushes the constant whose number is the byte at an offset. -/
def load (limit : Nat) (c : Chunk) (offset : Nat) (stack : List Float) :
    Except RuntimeFault (List Float) :=
  match c.byteAt? offset with
  | none => .error (.unexpectedEnd offset)
  | some index =>
    match c.constantAt? index.toNat with
    | none => .error (.invalidConstant index.toNat)
    | some value => push limit value stack

/-- Where a run stands after an instruction. -/
inductive Move where
  /-- The run goes on with the instruction at an offset. -/
  | go (offset : Nat) (stack : List Float)
  /-- The run ends with a value, above the rest of the stack. -/
  | halt (value : Float) (stack : List Float)

/-- Carries out an instruction whose operand, if it has one, stands at offset `next`. -/
def step (limit : Nat) (c : Chunk) (op : Opcode) (next : Nat) (stack : List Float) :
    Except RuntimeFault Move :=
  match op with
  | .constant => (load limit c next stack).map (Move.go (next + 1))
  | .add => (combine limit .add stack).map (Move.go next)
  | .subtract => (combine limit .subtract stack).map (Move.go next)
  | .multiply => (combine limit .multiply stack).map (Move.go next)
  | .divide => (combine limit .divide stack).map (Move.go next)
  | .negate => (negate limit stack).map (Move.go next)
  | .ret => (pop stack).map fun (value, rest) => Move.halt value rest

/-- A run never goes back. -/
theorem le_of_step_eq_go {limit : Nat} {c : Chunk} {op : Opcode} {next offset : Nat}
    {stack rest : List Float} (h : step limit c op next stack = .ok (.go offset rest)) :
    next ≤ offset := by
  have hgo {r : Except RuntimeFault (List Float)} {k : Nat}
      (hr : r.map (Move.go k) = .ok (.go offset rest)) : k = offset := by
    cases r with
    | error _ => cases hr
    | ok _ => cases hr; rfl
  cases op with
  | constant => exact Nat.le_of_succ_le (Nat.le_of_eq (hgo h))
  | ret => cases stack <;> cases h
  | add => exact Nat.le_of_eq (hgo h)
  | subtract => exact Nat.le_of_eq (hgo h)
  | multiply => exact Nat.le_of_eq (hgo h)
  | divide => exact Nat.le_of_eq (hgo h)
  | negate => exact Nat.le_of_eq (hgo h)

theorem lt_size_of_byteAt? {c : Chunk} {offset : Nat} {byte : UInt8}
    (h : c.byteAt? offset = some byte) : offset < c.size := by
  simp only [Chunk.byteAt?, Option.map_eq_some_iff, Array.getElem?_eq_some_iff] at h
  obtain ⟨_, ⟨hlt, _⟩, _⟩ := h
  exact hlt

/-- The line that is blamed for a fault at an offset; past the end it is the last line. -/
def blamedLine (c : Chunk) (offset : Nat) : Nat :=
  match c.lineAt? offset with
  | some line => line
  | none => c.lines.back?.getD 0

/-- The row that shows a stack, bottom first. -/
def stackRow (stack : List Float) : String :=
  "          [" ++ Text.joined ", " (stack.reverse.map Decimal.Layout.plain.text) ++ "]"

/-- What is shown of a run before the instruction at an offset. -/
def traceEvents (o : Options) (c : Chunk) (offset : Nat) (stack : List Float) : List Event :=
  if o.traceRun then [.row (stackRow stack), .row (c.listingRow offset)] else []

/-- The row that shows the value of a run. -/
def valueRow (value : Float) : String :=
  "Final stack value: " ++ Decimal.Layout.plain.text value

/-- How far the code is read after an instruction whose operand, if it has one, stands at
`next`. -/
def readTo (c : Chunk) (op : Opcode) (next : Nat) : Nat :=
  match op, c.byteAt? next with
  | .constant, some _ => next + 1
  | _, _ => next

/-- How a run ended, with the returned value and what is left on the stack or with an error, and
the offset of the byte that it would read next. -/
structure Stop where
  result : Except RuntimeError (Float × List Float)
  ip : Nat

/-- Runs a chunk from an offset on. -/
def runFrom (o : Options) (c : Chunk) (offset : Nat) (stack : List Float) : Traced Stop :=
  let shown := traceEvents o c offset stack
  match _h : c.byteAt? offset with
  | none => ⟨⟨.error ⟨.unexpectedEnd offset, blamedLine c offset⟩, offset⟩, shown⟩
  | some byte =>
    match Opcode.ofByte? byte with
    | none =>
      let rest := runFrom o c (offset + 1) stack
      ⟨rest.result, shown ++ .note (.unknownOpcode byte offset) :: rest.events⟩
    | some op =>
      let begun := shown ++ [.note (.executing op offset stack)]
      let ip := readTo c op (offset + 1)
      match hs : step o.stackMax c op (offset + 1) stack with
      | .error fault => ⟨⟨.error ⟨fault, blamedLine c offset⟩, ip⟩, begun⟩
      | .ok (.halt value left) => ⟨⟨.ok (value, left), ip⟩, begun ++ [.row (valueRow value)]⟩
      | .ok (.go next stack') =>
        let rest := runFrom o c next stack'
        ⟨rest.result, begun ++ rest.events⟩
termination_by c.size - offset
decreasing_by
  · have := lt_size_of_byteAt? _h
    omega
  · have := lt_size_of_byteAt? _h
    have := le_of_step_eq_go hs
    omega

/-- How a run ended, the stack it left and the offset of the byte that it would read next. -/
structure Outcome where
  result : Except RuntimeError Float
  stack : List Float
  ip : Nat

/-- Runs a chunk from an offset on.  A fault is reported and clears the stack. -/
def executeFrom (o : Options) (c : Chunk) (ip : Nat) (stack : List Float) : Traced Outcome :=
  let run := runFrom o c ip stack
  match run.result.result with
  | .ok (value, left) => ⟨⟨.ok value, left, run.result.ip⟩, run.events⟩
  | .error e =>
    ⟨⟨.error e, [], run.result.ip⟩, run.events ++ [.note (.runtimeFailed e), .row e.text]⟩

/-- Runs a chunk on an empty stack. -/
def execute (o : Options) (c : Chunk) : Traced Outcome :=
  executeFrom o c 0 []

end Reckon.Machine
