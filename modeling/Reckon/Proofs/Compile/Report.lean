/-
# One diagnostic

Parsing does not stop at the first fault.  It goes on over whatever tokens are left, and
finds more that is wrong; but only the first fault is reported.  It makes the session fail
and mutes it from then on.

Every state that a session leads to has put on record and printed the diagnostics it holds
and nothing else (`latched_of_reaches`); it holds at most one, and never lets go of it
(`diagnostic_of_reaches`).  So the text of a compilation is one diagnostic, or the listing of
the code if that is asked for (`compile_reports_once`).
-/
import Reckon.Proofs.Compile.Language

namespace Reckon

/-- The diagnostic that an event puts on record. -/
def Event.diagnosed? : Event → Option Diagnostic
  | note (.diagnosed d) => some d
  | _ => none

namespace Compile.State

/-! ## What is on record -/

/-- The diagnostics on record, in order. -/
def recorded (s : State) : List Diagnostic :=
  s.events.toList.filterMap Event.diagnosed?

/-- The texts that were printed, in order. -/
def printed (s : State) : List String :=
  s.events.toList.filterMap Event.text?

/-- On record and in print are the diagnostics that the state holds, and nothing else. -/
structure Latched (s : State) : Prop where
  recorded : s.recorded = s.diagnostics
  printed : s.printed = s.diagnostics.map (·.text ++ "\n")

section
variable {s s' : State}

@[simp]
theorem diagnostics_note (s : State) (n : Note) : (s.note n).diagnostics = s.diagnostics := rfl

theorem filterMap_emit {β : Type} (view : Event → Option β) (s : State) (e : Event) :
    (s.emit e).events.toList.filterMap view =
      s.events.toList.filterMap view ++ (view e).toList := by
  simp only [emit, Array.toList_push, List.filterMap_append, List.filterMap_cons,
    List.filterMap_nil]
  cases view e <;> rfl

theorem filterMap_write {β : Type} {view : Event → Option β}
    (hview : ∀ m n, view (.note (.chunkGrew m n)) = none) (s : State) (byte : UInt8) (line : Nat) :
    (s.write byte line).events.toList.filterMap view = s.events.toList.filterMap view := by
  have hgrown : s.chunk.growthEvents.filterMap view = [] := by
    unfold Chunk.growthEvents
    split
    · rw [List.filterMap_cons, hview]
      rfl
    · rfl
  simp only [write, Array.toList_appendList, List.filterMap_append, hgrown, List.append_nil]

/-- A view of the events that reports do not show in. -/
theorem filterMap_report {β : Type} {view : Event → Option β}
    (hsuppressed : ∀ m, view (.note (.suppressed m)) = none)
    (hdiagnosed : ∀ d, view (.note (.diagnosed d)) = none) (hrow : ∀ row, view (.row row) = none)
    (s : State) (t : Token) (message : String) :
    (s.report t message).events.toList.filterMap view = s.events.toList.filterMap view := by
  cases hmuted : s.muted with
  | true =>
      rw [report_of_muted hmuted, note, filterMap_emit, hsuppressed]
      exact List.append_nil _
  | false =>
      rw [report_of_heard hmuted]
      show (emit (emit s _) _).events.toList.filterMap view = _
      rw [filterMap_emit, filterMap_emit, hdiagnosed, hrow]
      exact (List.append_nil _).trans (List.append_nil _)

theorem Latched.note (h : s.Latched) {n : Note} (hn : ∀ d, n ≠ .diagnosed d) :
    (s.note n).Latched := by
  have hnone : Event.diagnosed? (.note n) = none := by
    unfold Event.diagnosed?
    split
    · next d heq =>
      cases heq
      exact absurd rfl (hn d)
    · rfl
  constructor
  · show (s.emit (.note n)).events.toList.filterMap Event.diagnosed? = _
    rw [filterMap_emit, hnone, Option.toList_none, List.append_nil]
    exact h.recorded
  · show (s.emit (.note n)).events.toList.filterMap Event.text? = _
    rw [filterMap_emit]
    exact (List.append_nil _).trans h.printed

/-- What is reported is kept, put on record and printed, or only noted. -/
theorem Latched.report (h : s.Latched) (t : Token) (message : String) :
    (s.report t message).Latched := by
  cases hmuted : s.muted with
  | true =>
      rw [report_of_muted hmuted]
      exact h.note fun _ => Note.noConfusion
  | false =>
      rw [report_of_heard hmuted]
      constructor
      · show (emit (emit s _) _).events.toList.filterMap Event.diagnosed? = _
        rw [filterMap_emit, filterMap_emit]
        exact congrArg (· ++ _ ++ _) h.recorded |>.trans (List.append_nil _)
      · show (emit (emit s _) _).events.toList.filterMap Event.text? = _
        rw [filterMap_emit, filterMap_emit, List.map_append]
        exact congrArg (· ++ _ ++ _) h.printed |>.trans (congrArg (· ++ _) (List.append_nil _))

theorem Acts.latched (h : Acts s s') (hs : s.Latched) : s'.Latched := by
  cases h with
  | note n hn => exact hs.note hn
  | read previous current stream => exact ⟨hs.recorded, hs.printed⟩
  | report t message => exact hs.report t message
  | pool value => exact ⟨hs.recorded, hs.printed⟩
  | write byte line =>
      exact ⟨(filterMap_write (fun _ _ => rfl) s byte line).trans hs.recorded,
        (filterMap_write (fun _ _ => rfl) s byte line).trans hs.printed⟩

theorem latched_of_reaches {source : String} (h : (start source).Reaches s) : s.Latched := by
  induction h with
  | refl => exact ⟨rfl, rfl⟩
  | tail _ hacts ih => exact hacts.latched ih

theorem latched_finish (source : String) (maxNesting : Nat) :
    (finish source maxNesting).Latched :=
  latched_of_reaches (reaches_finish source maxNesting)

/-! ## What stays -/

theorem Acts.diagnostic (h : Acts s s') {d : Diagnostic} (hd : s.diagnostic = some d) :
    s'.diagnostic = some d := by
  cases h with
  | report t message =>
      rw [diagnostic_report, hd]
      rfl
  | note | read | pool | write => exact hd

theorem diagnostic_of_reaches (h : s.Reaches s') {d : Diagnostic} (hd : s.diagnostic = some d) :
    s'.diagnostic = some d := by
  induction h with
  | refl => exact hd
  | tail _ hacts ih => exact hacts.diagnostic ih

/-- A session that fails is muted by its one diagnostic. -/
theorem Agrees.of_failed (h : s.Agrees) (hfailed : s.failed = true) :
    ∃ d, s.diagnostic = some d := by
  rw [h.failed] at hfailed
  exact ⟨_, if_pos hfailed⟩

theorem Agrees.failed_iff_length (h : s.Agrees) :
    s.failed = true ↔ s.diagnostics.length = 1 := by
  cases hd : s.diagnostic with
  | none => simp [h.of_none hd]
  | some d => simp [h.of_some hd]

theorem Agrees.clear_iff (h : s.Agrees) : s.failed = false ↔ s.diagnostics = [] := by
  cases hd : s.diagnostic with
  | none => simp [h.of_none hd]
  | some d => simp [h.of_some hd]

end

end Compile.State

open Compile.State

/-! ## The text of a compilation -/

section
variable {o : Options} {source : String}

theorem text_of_failed {d : Diagnostic}
    (hd : (finish source o.maxNesting).diagnostic = some d) :
    (compile o source).text = d.text ++ "\n" := by
  have hlatched := (latched_finish source o.maxNesting).note (n := .compileFailed 1)
    fun _ => Note.noConfusion
  have hprinted := hlatched.printed
  rw [diagnostics_note, ((agrees_finish source o.maxNesting).of_some hd).2] at hprinted
  rw [compile_of_diagnostic hd]
  refine (congrArg String.join hprinted).trans ?_
  rw [List.map_singleton, String.join_cons, String.join_nil, String.append_empty]

theorem text_of_clear (hd : (finish source o.maxNesting).diagnostic = none) :
    (compile o source).events.filterMap Event.diagnosed? = [] ∧
      (compile o source).text =
        if o.listCode then (finish source o.maxNesting).chunk.listing "code" else "" := by
  have hdone := (latched_finish source o.maxNesting).note
    (n := .compiled (finish source o.maxNesting).chunk.size
      (finish source o.maxNesting).chunk.constants.size) fun _ => Note.noConfusion
  have hrecorded := hdone.recorded
  have hprinted := hdone.printed
  rw [diagnostics_note, ((agrees_finish source o.maxNesting).of_none hd).2] at hrecorded hprinted
  rw [compile_of_clear hd]
  simp only [Traced.text]
  cases o.listCode with
  | false => exact ⟨hrecorded, congrArg String.join hprinted⟩
  | true =>
      rw [if_pos rfl, if_pos rfl, filterMap_emit, filterMap_emit]
      refine ⟨(List.append_nil _).trans hrecorded, ?_⟩
      refine (congrArg (fun texts => String.join (texts ++ _)) hprinted).trans ?_
      rw [Event.text?, Option.toList_some, List.map_nil, List.nil_append,
        String.join_cons, String.join_nil, String.append_empty]

end

/-- A compilation that fails has one diagnostic, and prints it and nothing else.  One that does
not fail puts none on record and prints the listing of its code, if it is asked for, and nothing
else.  At every point of the session that leads there it is the same to be failed, to be muted, so
that further faults are only noted, and to hold one diagnostic; what is on record and in print is
what it holds; and once this is so, it stays so. -/
theorem compile_reports_once (o : Options) (source : String) :
    (∀ e, (compile o source).result = .error e →
      ∃ d, e.diagnostics = [d] ∧ (compile o source).text = d.text ++ "\n") ∧
    (∀ c, (compile o source).result = .ok c →
      (compile o source).events.filterMap Event.diagnosed? = [] ∧
      (compile o source).text = if o.listCode then c.listing "code" else "") ∧
    (start source).Reaches (finish source o.maxNesting) ∧
    ((finish source o.maxNesting).failed = true ↔ ∃ e, (compile o source).result = .error e) ∧
    ∀ s, (start source).Reaches s →
      (s.failed = true ↔ s.muted = true) ∧
      (s.failed = true ↔ s.diagnostics.length = 1) ∧
      (s.failed = false ↔ s.diagnostics = []) ∧
      (s.muted = true → ∀ t message, s.report t message = s.note (.suppressed message)) ∧
      s.recorded = s.diagnostics ∧ s.printed = s.diagnostics.map (·.text ++ "\n") ∧
      ∀ s', s.Reaches s' → s.failed = true →
        s'.failed = true ∧ s'.muted = true ∧ s'.diagnostics = s.diagnostics := by
  refine ⟨fun e he => ?_, fun c hc => ?_, reaches_finish source _, ?_, fun s hs => ?_⟩
  · rw [compile_result] at he
    cases hd : (finish source o.maxNesting).diagnostic with
    | none =>
        rw [hd] at he
        cases he
    | some d =>
        rw [hd] at he
        cases he
        exact ⟨d, rfl, text_of_failed hd⟩
  · obtain ⟨hd, rfl⟩ := compile_eq_ok hc
    exact text_of_clear hd
  · have hagrees := agrees_finish source o.maxNesting
    rw [compile_result]
    cases hd : (finish source o.maxNesting).diagnostic with
    | none => simp [hagrees.of_none hd]
    | some d => simp [hagrees.of_some hd]
  · have hagrees := agrees_of_reaches hs
    have hlatched := latched_of_reaches hs
    refine ⟨by rw [hagrees.failed], hagrees.failed_iff_length, hagrees.clear_iff,
      report_of_muted, hlatched.recorded, hlatched.printed, fun s' hreach hfailed => ?_⟩
    obtain ⟨d, hd⟩ := hagrees.of_failed hfailed
    have hagrees' := agrees_of_reaches (hs.trans hreach)
    obtain ⟨hfailed', hfound'⟩ := hagrees'.of_some (diagnostic_of_reaches hreach hd)
    refine ⟨hfailed', hagrees'.failed ▸ hfailed', ?_⟩
    rw [hfound', (hagrees.of_some hd).2]

end Reckon
