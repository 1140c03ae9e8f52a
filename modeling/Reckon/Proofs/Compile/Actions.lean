/-
# The actions of a session

A session is a row of actions: noting, reading, reporting, writing (`Acts`).  Compiling is
such a session (`reaches_finish`), whatever the tokens are and however often a fault is met
on the way.

A state has three things to say about faults: whether the compilation fails, whether it is
muted, and the diagnostics.  Nothing in the type keeps them together.  They agree in the
first state, every action keeps that up (`Acts.agrees`), and so they agree in the last one
(`agrees_finish`), where the result is read off.
-/
import Mathlib.Logic.Relation
import Reckon.Proofs.Compile.Session

namespace Reckon

namespace Compile.State

/-! ## What a session can do -/

/-- `Acts s s'`: one action leads from `s` to `s'`.  A diagnostic is put on record by a report
only. -/
inductive Acts (s : State) : State → Prop
  | note (n : Note) : (∀ d, n ≠ .diagnosed d) → Acts s (s.note n)
  | read (previous current : Token) (stream : TokenStream) :
      Acts s { s with previous, current, stream }
  | report (t : Token) (message : String) : Acts s (s.report t message)
  | pool (value : Float) : Acts s { s with chunk := s.chunk.addConstant value }
  | write (byte : UInt8) (line : Nat) : Acts s (s.write byte line)

/-- `s.Reaches s'`: some actions lead from `s` to `s'`. -/
def Reaches (s s' : State) : Prop :=
  Relation.ReflTransGen Acts s s'

section
variable {s₀ s : State}

theorem Reaches.fetch (ts : List Token) (h : s₀.Reaches s) : s₀.Reaches (s.fetch ts) := by
  induction ts generalizing s with
  | nil =>
      have hnoted : s₀.Reaches (s.note (.scanned s.stream.eof)) :=
        h.tail (.note _ fun _ => Note.noConfusion)
      exact hnoted.tail (.read _ _ _)
  | cons t rest ih =>
      have hnoted : s₀.Reaches (s.note (.scanned t)) :=
        h.tail (.note _ fun _ => Note.noConfusion)
      unfold State.fetch
      split
      · exact ih (hnoted.tail (.report t t.lexeme))
      · exact hnoted.tail (.read _ _ _)

theorem Reaches.advance (h : s₀.Reaches s) : s₀.Reaches s.advance :=
  h.fetch _

theorem Reaches.report (h : s₀.Reaches s) (t : Token) (message : String) :
    s₀.Reaches (s.report t message) :=
  h.tail (.report t message)

theorem Reaches.writeOp (h : s₀.Reaches s) (op : Opcode) (line : Nat) :
    s₀.Reaches (s.writeOp op line) :=
  h.tail (.write op.toByte line)

theorem Reaches.writeNumber (h : s₀.Reaches s) : s₀.Reaches s.writeNumber := by
  unfold State.writeNumber
  split
  · next value _ =>
    unfold writeConstant
    simp only
    split
    · exact h.report _ _
    · have hpooled := h.tail (.pool value)
      have hnoted := hpooled.tail
        (.note (.addedConstant s.chunk.constants.size value) fun _ => Note.noConfusion)
      have hwritten : s₀.Reaches _ := hnoted.tail (.write Opcode.constant.toByte s.previous.line)
      exact hwritten.tail (.write (UInt8.ofNat s.chunk.constants.size) s.previous.line)
  · exact h.report _ _

theorem kept_reaches (s₀ : State) : Kept (fun s => s₀.Reaches s) where
  advance := Reaches.advance
  blame := fun _ _ h => h.report _ _
  blamePassed := fun h => h.advance.report _ _
  writeOp := fun op line _ h => h.writeOp op line
  writeNumber := fun h _ => h.advance.writeNumber

/-- Compiling a source is a session. -/
theorem reaches_finish (source : String) (maxNesting : Nat) :
    (start source).Reaches (finish source maxNesting) := by
  have hfirst : (start source).Reaches (start source).advance :=
    Reaches.advance Relation.ReflTransGen.refl
  have hparsed := (kept_reaches (start source)).parse maxNesting .assignment hfirst
  have hended := (kept_reaches (start source)).consume hparsed .eof (c := .expectEnd) (by decide)
  exact hended.writeOp .ret _

end

/-! ## What a session says about faults -/

/-- Failing and being muted come together, and with a single diagnostic. -/
structure Agrees (s : State) : Prop where
  failed : s.failed = s.muted
  diagnostics : s.diagnostics = s.diagnostic.toList

section
variable {s s' : State}

theorem report_of_muted (h : s.muted = true) (t : Token) (message : String) :
    s.report t message = s.note (.suppressed message) :=
  if_pos h

theorem report_of_heard (h : s.muted = false) (t : Token) (message : String) :
    s.report t message =
      let found : Diagnostic := ⟨t.line, location t, message⟩
      { s with
        failed := true, muted := true, diagnostics := s.diagnostics ++ [found]
        events := (s.events.push (.note (.diagnosed found))).push (.row found.text) } := by
  rw [report, h]
  rfl

theorem diagnostic_of_heard (h : s.muted = false) : s.diagnostic = none := by
  rw [diagnostic, h]
  rfl

theorem diagnostic_eq_none_iff : s.diagnostic = none ↔ s.muted = false := by
  unfold diagnostic
  cases s.muted <;> simp

theorem Agrees.report (h : s.Agrees) (t : Token) (message : String) :
    (s.report t message).Agrees := by
  cases hmuted : s.muted with
  | true =>
      rw [report_of_muted hmuted]
      exact ⟨h.failed, h.diagnostics⟩
  | false =>
      have hempty := h.diagnostics
      rw [diagnostic_of_heard hmuted, Option.toList_none] at hempty
      refine ⟨by rw [report_of_heard hmuted], ?_⟩
      rw [diagnostic_report, diagnostic_of_heard hmuted, report_of_heard hmuted]
      simp only [hempty]
      rfl

theorem Acts.agrees (h : Acts s s') (hs : s.Agrees) : s'.Agrees := by
  cases h with
  | report t message => exact hs.report t message
  | note | read | pool | write => exact ⟨hs.failed, hs.diagnostics⟩

theorem agrees_of_reaches {source : String} (h : (start source).Reaches s) : s.Agrees := by
  induction h with
  | refl => exact ⟨rfl, rfl⟩
  | tail _ hacts ih => exact hacts.agrees ih

theorem agrees_finish (source : String) (maxNesting : Nat) :
    (finish source maxNesting).Agrees :=
  agrees_of_reaches (reaches_finish source maxNesting)

theorem Agrees.of_some (h : s.Agrees) {d : Diagnostic} (hd : s.diagnostic = some d) :
    s.failed = true ∧ s.diagnostics = [d] := by
  refine ⟨?_, by rw [h.diagnostics, hd]; rfl⟩
  rw [h.failed]
  cases hmuted : s.muted with
  | true => rfl
  | false =>
      rw [diagnostic_of_heard hmuted] at hd
      cases hd

theorem Agrees.of_none (h : s.Agrees) (hd : s.diagnostic = none) :
    s.failed = false ∧ s.diagnostics = [] :=
  ⟨h.failed.trans (diagnostic_eq_none_iff.mp hd), by rw [h.diagnostics, hd]; rfl⟩

end

end Compile.State

/-! ## What compiling gives -/

section
variable {o : Options} {source : String}

open Compile.State

theorem compile_of_diagnostic {d : Diagnostic}
    (hd : (finish source o.maxNesting).diagnostic = some d) :
    compile o source =
      ⟨.error ⟨[d]⟩, ((finish source o.maxNesting).note (.compileFailed 1)).events.toList⟩ := by
  obtain ⟨hfailed, hfound⟩ := (agrees_finish source o.maxNesting).of_some hd
  unfold compile
  simp only [hfailed, hfound, if_true]
  rfl

theorem compile_of_clear (hd : (finish source o.maxNesting).diagnostic = none) :
    compile o source =
      let s := finish source o.maxNesting
      let done := s.note (.compiled s.chunk.size s.chunk.constants.size)
      let shown := if o.listCode then done.emit (.text (s.chunk.listing "code")) else done
      ⟨.ok s.chunk, shown.events.toList⟩ := by
  obtain ⟨hfailed, _⟩ := (agrees_finish source o.maxNesting).of_none hd
  exact if_neg (Bool.not_eq_true _ ▸ hfailed)

/-- The result of compiling is what the last state says. -/
theorem compile_result (o : Options) (source : String) :
    (compile o source).result =
      match (finish source o.maxNesting).diagnostic with
      | some d => .error ⟨[d]⟩
      | none => .ok (finish source o.maxNesting).chunk := by
  cases hd : (finish source o.maxNesting).diagnostic with
  | none => rw [compile_of_clear hd]
  | some d => rw [compile_of_diagnostic hd]

end

end Reckon
