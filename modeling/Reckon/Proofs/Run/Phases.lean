/-
# The span and the phases of a run

A run has a span of its own.  It is entered before the first note, and left when the run has
ended, be it with a value, a diagnostic or a fault.  Nothing in between changes the logger, so
the span is found where it was put, above all spans that were open before, and every record of
the run was made while it was the current one (`run_in_own_span`).

The notes that say where a run stands are the ones of level `info`.  The compiler and the
machine write none of these: all they note while they work is of other levels (`kept_quiet`,
`phases_execute`).  So the phases of a run are known from how it ends (`phases_runSource`).
-/
import Reckon.Proofs.Compile.Report
import Reckon.Proofs.Log.Session
import Reckon.Proofs.Machine.Decoding
import Reckon.Run

namespace Reckon

/-- The note of an event, if it says where a run stands. -/
def Event.phase? : Event → Option Note
  | note n => if n.level = .info then some n else none
  | text _ => none

/-- The notes of a computation that say where it stands. -/
def Traced.phases {α : Type} (t : Traced α) : List Note :=
  t.events.filterMap Event.phase?

theorem Traced.filter_notes {α : Type} (t : Traced α) :
    t.notes.filter (·.level = .info) = t.phases := by
  rw [notes, phases, List.filter_filterMap]
  congr 1
  funext e
  cases e with
  | text s => rfl
  | note n => simp [Event.note?, Event.phase?, Option.filter]

/-! ## The compiler -/

namespace Compile.State

/-- The session has not noted any phase. -/
def Quiet (s : State) : Prop :=
  s.events.toList.filterMap Event.phase? = []

section
variable {s : State}

theorem Quiet.emit (h : s.Quiet) {e : Event} (he : e.phase? = none) : (s.emit e).Quiet := by
  rw [Quiet, filterMap_emit, he, h]
  rfl

theorem Quiet.report (h : s.Quiet) (t : Token) (message : String) :
    (s.report t message).Quiet :=
  (filterMap_report (fun _ => rfl) (fun _ => rfl) (fun _ => rfl) s t message).trans h

theorem Quiet.fetch (h : s.Quiet) (ts : List Token) : (s.fetch ts).Quiet := by
  induction ts generalizing s with
  | nil => exact h.emit rfl
  | cons t rest ih =>
      have hnoted : (s.note (.scanned t)).Quiet := h.emit rfl
      unfold State.fetch
      split
      · exact ih (hnoted.report t t.lexeme)
      · exact hnoted

theorem Quiet.write (h : s.Quiet) (byte : UInt8) (line : Nat) : (s.write byte line).Quiet :=
  (filterMap_write (fun _ _ => rfl) s byte line).trans h

theorem Quiet.writeNumber (h : s.Quiet) : s.writeNumber.Quiet := by
  unfold State.writeNumber
  split
  · next value _ =>
    unfold writeConstant
    simp only
    split
    · exact h.report ..
    · have hpooled : ({ s with chunk := s.chunk.addConstant value } : State).Quiet := h
      have hnoted : (State.note { s with chunk := s.chunk.addConstant value }
          (.addedConstant s.chunk.constants.size value)).Quiet := hpooled.emit rfl
      exact (hnoted.write ..).write ..
  · exact h.report ..

end

theorem kept_quiet : Kept Quiet where
  advance := fun h => h.fetch _
  blame := fun _ _ h => h.report ..
  blamePassed := fun h => (h.fetch _).report ..
  writeOp := fun _ _ _ h => h.write ..
  writeNumber := fun h _ => Quiet.writeNumber (h.fetch _)

theorem quiet_finish (source : String) (maxNesting : Nat) : (finish source maxNesting).Quiet := by
  have hstart : (start source).Quiet := rfl
  have hfirst : (start source).advance.Quiet := hstart.fetch _
  have hparsed := kept_quiet.parse maxNesting .assignment hfirst
  have hended := kept_quiet.consume hparsed .eof (c := .expectEnd) (by decide)
  exact hended.write ..

end Compile.State

theorem phases_compile (o : Options) (source : String) : (compile o source).phases = [] := by
  have hquiet := Compile.State.quiet_finish source o.maxNesting
  simp only [compile]
  split
  · exact hquiet.emit (e := .note (.compileFailed _)) rfl
  · have hdone := hquiet.emit (e := .note (.compiled
      (Compile.State.finish source o.maxNesting).chunk.size
      (Compile.State.finish source o.maxNesting).chunk.constants.size)) rfl
    cases o.listCode with
    | false => exact hdone
    | true => exact hdone.emit (e := .text _) rfl

/-! ## The machine -/

namespace Machine

theorem phases_placeEvents (o : Options) (c : Chunk) (p : Place) :
    (placeEvents o c p).filterMap Event.phase? = [] := by
  unfold placeEvents traceEvents fetchNote?
  cases c.byteAt? p.offset with
  | none => cases o.traceRun <;> rfl
  | some byte =>
      rw [Option.map_some]
      cases Opcode.ofByte? byte <;> cases o.traceRun <;> rfl

theorem phases_execute (o : Options) (c : Chunk) : (execute o c).phases = [] := by
  obtain ⟨passed, last, r, _, _, hrun⟩ := exists_path o c ⟨0, []⟩
  have hplaces : ((passed ++ [last]).flatMap (placeEvents o c)).filterMap Event.phase? = [] := by
    rw [List.filterMap_flatMap, List.flatMap_eq_nil_iff]
    exact fun p _ => phases_placeEvents o c p
  simp only [execute, executeFrom, hrun, Traced.phases]
  cases r with
  | ok pair =>
      simp only [List.filterMap_append, hplaces]
      rfl
  | error e =>
      simp only [List.filterMap_append, hplaces]
      rfl

end Machine

/-! ## Phases -/

/-- How many phases a run goes through. -/
def phaseCount : Except RunError Float → Nat
  | .ok _ => 4
  | .error (.compile _) => 2
  | .error (.runtime _) => 3

theorem phases_listTokens (o : Options) (source : String) :
    (listTokens o source).filterMap Event.phase? = [] := by
  unfold listTokens
  split <;> rfl

theorem phases_runSource (o : Options) (source : String) :
    (runSource o source).phases =
      [Note.runStarted, .compilerStarted, .compilerDone, .runDone].take
        (phaseCount (runSource o source).result) := by
  have hlisted := phases_listTokens o source
  have hcompiled : (compile o source).events.filterMap Event.phase? = [] :=
    phases_compile o source
  simp only [runSource, compileSource, executeChunk]
  cases (compile o source).result with
  | error e =>
      simp [Traced.phases, hlisted, hcompiled, phaseCount, Event.phase?, Note.level]
  | ok c =>
      have hexecuted : (Machine.execute o c).events.filterMap Event.phase? = [] :=
        Machine.phases_execute o c
      cases hr : (Machine.execute o c).result.result with
      | error e =>
          simp [Traced.phases, hr, hlisted, hcompiled, hexecuted, phaseCount, Event.phase?,
            Note.level]
      | ok value =>
          simp [Traced.phases, hr, hlisted, hcompiled, hexecuted, phaseCount, Event.phase?,
            Note.level]

namespace Console

theorem span_of_mem_recordsOf {c : Console} {notes : List Note} {r : Record}
    (h : r ∈ c.recordsOf notes) : r.span = c.logger.current?.map Span.id := by
  obtain ⟨n, _, hn⟩ := List.mem_filterMap.mp h
  rw [Logger.eq_of_record? hn]
  rfl

/-- The records of a run: the notes on the way, as far as the log lets them through, in a span
entered for the run. -/
def runRecords (c : Console) (o : Options) (source : String) : List Record :=
  (c.withLogger (·.enter "run")).recordsOf (runSource o source).notes

/-- However a run ends, it leaves the logger as it was, spans included, except that one more
number of a span is used up.  Its records, which go to all sinks, are those of its notes that the
log lets through, and they all carry that number.  If records of level `info` are let through,
the run tells by them which phases it went through: all four if it has a value, the first two if
the source does not compile, and the first three if the machine meets a fault. -/
theorem run_in_own_span (c : Console) (o : Options) (source : String) :
    (c.run o source).2.logger = { c.logger with nextSpan := c.logger.nextSpan + 1 } ∧
    c.Sends (c.run o source).2 (c.logger.sends (c.runRecords o source)) ∧
    (∀ r ∈ c.runRecords o source, r.span = some c.logger.nextSpan) ∧
    (c.logger.threshold.rank ≤ Level.info.rank →
      ((c.runRecords o source).filter (·.level = .info)).map Record.message =
        ["Starting execution", "Starting compiler", "Compiler completed",
          "Execution completed"].take (phaseCount (c.run o source).1)) := by
  have hlogger := (c.withLogger (·.enter "run")).logger_observeAll (runSource o source).events
  refine ⟨?_, ?_, ?_, ?_⟩
  · show ((c.withLogger (·.enter "run")).observeAll
      (runSource o source).events).logger.leave c.logger.nextSpan = _
    rw [hlogger]
    exact c.logger.leave_enter "run"
  · have hinside := (c.withLogger (·.enter "run")).sends_observeAll (runSource o source).events
    have hentered := (c.sends_withLogger (·.enter "run")).trans hinside
    exact (hentered.trans (sends_withLogger _ (·.leave c.logger.nextSpan))).congr
      fun sink => List.append_nil _
  · intro r hr
    rw [span_of_mem_recordsOf hr]
    show (c.logger.spans ++ [_]).getLast?.map Span.id = _
    rw [List.getLast?_concat]
    rfl
  · intro hlevel
    have henabled : (c.withLogger (·.enter "run")).logger.enabled .info = true :=
      decide_eq_true hlevel
    rw [runRecords, messages_recordsOf henabled, Traced.filter_notes, phases_runSource,
      List.map_take]
    rfl

end Console

end Reckon
