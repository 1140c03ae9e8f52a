/-
Options of a run: what is listed and traced on the way, and the limits.
-/

namespace Reckon

/-- How a source is compiled and run. -/
structure Options where
  /-- List the tokens before compiling. -/
  listTokens : Bool := false
  /-- List the code after compiling. -/
  listCode : Bool := true
  /-- How many operands may be open at once, one inside the other. -/
  maxNesting : Nat := 256
  /-- Show the stack and the instruction before each step. -/
  traceRun : Bool := false
  /-- How many values the stack may hold. -/
  stackMax : Nat := 256
deriving DecidableEq, Repr

end Reckon
