/-
An interpreter: a machine that is used again and again.

It compiles sources and runs chunks.  A run starts at the first byte with an empty stack,
wherever the last one stopped and whatever it left; between runs the stack can be looked at.
-/
import Reckon.Compile.Basic
import Reckon.Failure
import Reckon.Machine.Basic

namespace Reckon

/-- A machine with its options, the stack of its last run and the place where that stopped. -/
structure Interpreter where
  options : Options
  stack : List Float := []
  ip : Nat := 0

namespace Interpreter

/-- Goes back to the first byte and clears the stack. -/
def reset (i : Interpreter) : Interpreter :=
  { i with ip := 0, stack := [] }

/-- Runs a chunk. -/
def runChunk (i : Interpreter) (c : Chunk) : Traced (Except RunError Float) × Interpreter :=
  let i := i.reset
  let run := Machine.executeFrom i.options c i.ip i.stack
  (⟨run.result.result.mapError .runtime, run.events⟩,
    { i with stack := run.result.stack, ip := run.result.ip })

/-- Nothing of what the interpreter was left with shows in a run. -/
theorem runChunk_eq (i : Interpreter) (c : Chunk) :
    i.runChunk c =
      let run := Machine.execute i.options c
      (⟨run.result.result.mapError .runtime, run.events⟩,
        ⟨i.options, run.result.stack, run.result.ip⟩) := rfl

/-- Compiles a source and runs its code; a source with a fault leaves the machine alone. -/
def interpret (i : Interpreter) (source : String) :
    Traced (Except RunError Float) × Interpreter :=
  let compiled := compile i.options source
  match compiled.result with
  | .error e => (⟨.error (.compile e), compiled.events⟩, i)
  | .ok chunk =>
    let (run, after) := i.runChunk chunk
    (⟨run.result, compiled.events ++ run.events⟩, after)

end Interpreter

end Reckon
