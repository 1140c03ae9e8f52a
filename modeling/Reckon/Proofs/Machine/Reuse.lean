/-
# An interpreter used again and again

An interpreter serves calls one after the other.  It still has what the calls before have
left: the place where the last run stopped, and on the stack the values below the one that was
returned, or nothing after a fault.  A chunk is run from the first byte and the empty stack on,
wherever the last run stopped and whatever it left (`runChunk_path`), and so is a source that
compiles.  A source that does not compile is answered before anything is touched, and what was
left is still there for the next call.

What a single call does is said by the code that it runs, if any (`answer_serve`,
`after_serve`).  By induction, whole sequences of calls are answered as if every call had an
interpreter of its own, and they leave the interpreter as the last one that ran would have left
a new one (`serveAll_as_new`).
-/
import Reckon.Machine.Interpreter
import Reckon.Proofs.Machine.Path

namespace Reckon

open Machine (Path Ends)

/-- What an interpreter can be asked for. -/
inductive Call where
  /-- Compile a source and run its code. -/
  | source (text : String)
  /-- Run a chunk. -/
  | chunk (c : Chunk)

/-- The code that a call runs; a source with a fault has none. -/
def Call.code? (o : Options) : Call → Option Chunk
  | source text => (compile o text).result.toOption
  | chunk c => some c

namespace Interpreter

/-- An interpreter that has not been used. -/
def new (o : Options) : Interpreter := { options := o }

/-- The answer to a call, and the interpreter after it. -/
def serve (i : Interpreter) : Call → Traced (Except RunError Float) × Interpreter
  | .source text => i.interpret text
  | .chunk c => i.runChunk c

/-- The answers to calls made one after the other, and the interpreter after them. -/
def serveAll (i : Interpreter) :
    List Call → List (Traced (Except RunError Float)) × Interpreter
  | [] => ([], i)
  | call :: rest =>
    let (answer, next) := i.serve call
    let (answers, last) := next.serveAll rest
    (answer :: answers, last)

/-- What a chunk makes of an interpreter that has not been used. -/
def leftBy (o : Options) (c : Chunk) : Interpreter :=
  ((new o).runChunk c).2

/-- What is left of a stack at the end of a run: all below the value, and nothing after a
fault. -/
def leftover : Except RuntimeError (Float × List Float) → List Float
  | .ok (_, left) => left
  | .error _ => []

/-! ## One call -/

section
variable (i : Interpreter)

/-- A run leaves nothing of what there was before it. -/
theorem after_runChunk (c : Chunk) : (i.runChunk c).2 = leftBy i.options c := by
  rw [leftBy, runChunk_eq, runChunk_eq]
  rfl

/-- Every run begins at the first byte with nothing on the stack. -/
theorem runChunk_path (c : Chunk) :
    ∃ passed last r,
      Path i.options.stackMax c ⟨0, []⟩ passed last ∧ Ends i.options.stackMax c last r ∧
      (i.runChunk c).1.result = (r.map Prod.fst).mapError .runtime ∧
      (i.runChunk c).2 = ⟨i.options, leftover r, last.readTo c⟩ := by
  obtain ⟨passed, last, r, hpath, hends, hrun⟩ := Machine.exists_path i.options c ⟨0, []⟩
  refine ⟨passed, last, r, hpath, hends, ?_⟩
  simp only [runChunk_eq, Machine.execute, Machine.executeFrom, hrun]
  cases r with
  | ok pair => exact ⟨rfl, rfl⟩
  | error e => exact ⟨rfl, rfl⟩

theorem interpret_of_error {text : String} {e : CompileError}
    (h : (compile i.options text).result = .error e) :
    i.interpret text = (⟨.error (.compile e), (compile i.options text).events⟩, i) := by
  simp only [interpret, h]

theorem interpret_of_ok {text : String} {c : Chunk}
    (h : (compile i.options text).result = .ok c) :
    i.interpret text =
      (⟨(i.runChunk c).1.result, (compile i.options text).events ++ (i.runChunk c).1.events⟩,
        (i.runChunk c).2) := by
  simp only [interpret, h]

/-- No call is answered out of what is left from others. -/
theorem answer_serve (call : Call) :
    (i.serve call).1 = ((new i.options).serve call).1 := by
  cases call with
  | chunk c => rfl
  | source text =>
      simp only [serve]
      cases h : (compile i.options text).result with
      | error e => rw [interpret_of_error i h, interpret_of_error (new i.options) h]; rfl
      | ok c =>
          rw [interpret_of_ok i h, interpret_of_ok (new i.options) h, runChunk_eq, runChunk_eq]
          rfl

/-- A call that runs code leaves what that code leaves; any other call changes nothing. -/
theorem after_serve (call : Call) :
    (i.serve call).2 = (call.code? i.options).elim i (leftBy i.options) := by
  cases call with
  | chunk c => exact after_runChunk i c
  | source text =>
      simp only [serve, Call.code?]
      cases h : (compile i.options text).result with
      | error e =>
          rw [interpret_of_error i h]
          rfl
      | ok c =>
          rw [interpret_of_ok i h]
          exact after_runChunk i c

/-- Only a source that does not compile is answered with a compile error. -/
theorem compile_of_interpret {text : String} {e : CompileError}
    (h : (i.interpret text).1.result = .error (.compile e)) :
    (compile i.options text).result = .error e := by
  cases hc : (compile i.options text).result with
  | error e' =>
      rw [interpret_of_error i hc] at h
      cases h
      rfl
  | ok c =>
      rw [interpret_of_ok i hc] at h
      simp only [runChunk_eq] at h
      cases hr : (Machine.execute i.options c).result.result with
      | ok value => rw [hr] at h; cases h
      | error fault => rw [hr] at h; cases h

end

theorem options_after_serve (i : Interpreter) (call : Call) :
    (i.serve call).2.options = i.options := by
  rw [after_serve]
  cases call.code? i.options with
  | none => rfl
  | some c => rw [Option.elim_some, leftBy, runChunk_eq]; rfl

/-! ## Sequences of calls -/

theorem answers_serveAll (i : Interpreter) (calls : List Call) :
    (i.serveAll calls).1 = calls.map fun call => ((new i.options).serve call).1 := by
  induction calls generalizing i with
  | nil => rfl
  | cons call rest ih =>
      show (i.serve call).1 :: ((i.serve call).2.serveAll rest).1 = _
      rw [ih, options_after_serve, answer_serve, List.map_cons]

/-- After some calls the interpreter is as the last one which ran code leaves it. -/
theorem after_serveAll (i : Interpreter) (calls : List Call) :
    (i.serveAll calls).2 =
      (calls.filterMap (Call.code? i.options)).getLast?.elim i (leftBy i.options) := by
  induction calls generalizing i with
  | nil => rfl
  | cons call rest ih =>
      show ((i.serve call).2.serveAll rest).2 = _
      rw [ih, options_after_serve, after_serve, List.filterMap_cons]
      cases call.code? i.options with
      | none => rfl
      | some c =>
          rw [List.getLast?_cons]
          cases (rest.filterMap (Call.code? i.options)).getLast? with
          | none => rfl
          | some last => rfl

theorem options_after_serveAll (i : Interpreter) (calls : List Call) :
    (i.serveAll calls).2.options = i.options := by
  induction calls generalizing i with
  | nil => rfl
  | cons call rest ih => exact (ih _).trans (options_after_serve i call)

/-- An interpreter answers every call of a sequence as one that has not been used: with the same
result, the same texts and the same notes.  After the calls it is, with its options, its stack and
the place where it stopped, what the last call that ran code makes of one that has not been used,
or what it was if there was none.  Wherever the sequence stands, a chunk is run from its first byte
and the empty stack on and leaves what it leaves in an interpreter that has not been used, and a
source that does not compile changes nothing. -/
theorem serveAll_as_new (i : Interpreter) (calls : List Call) :
    (i.serveAll calls).1 = calls.map (fun call => ((new i.options).serve call).1) ∧
    (i.serveAll calls).2.options = i.options ∧
    (i.serveAll calls).2 =
      (calls.filterMap (Call.code? i.options)).getLast?.elim i
        (fun c => ((new i.options).runChunk c).2) ∧
    (∀ c, ((i.serveAll calls).2.runChunk c).2 = ((new i.options).runChunk c).2 ∧
      ∃ passed last r,
        Path i.options.stackMax c ⟨0, []⟩ passed last ∧ Ends i.options.stackMax c last r ∧
        ((i.serveAll calls).2.runChunk c).1.result = (r.map Prod.fst).mapError .runtime ∧
        ((i.serveAll calls).2.runChunk c).2 = ⟨i.options, leftover r, last.readTo c⟩) ∧
    ∀ text e, ((i.serveAll calls).2.interpret text).1.result = .error (.compile e) →
      ((i.serveAll calls).2.interpret text).2 = (i.serveAll calls).2 := by
  have hoptions := options_after_serveAll i calls
  refine ⟨answers_serveAll i calls, hoptions, after_serveAll i calls, fun c => ⟨?_, ?_⟩,
    fun text e h => ?_⟩
  · rw [after_runChunk, hoptions]
    rfl
  · rw [← hoptions]
    exact runChunk_path _ c
  · rw [interpret_of_error _ (compile_of_interpret _ h)]

end Interpreter

end Reckon
