/-
# How a run of a source ends

A source that does not compile is answered with its one diagnostic.  One that compiles is
run, and then the room on the stack decides (`runSource_cases`).  An interpreter gives
the same answers, whatever its stack held before.

The limit on nesting and the limit of the stack are set apart, but the first bounds what
the second has to hold: a stack that is not smaller than the nesting never overflows
(`run_value_or_compileError`).
-/
import Reckon.Proofs.Machine.Evaluation
import Reckon.Run

namespace Reckon

open Reckon.Expr (Spells)

theorem result_run (console : Console) (o : Options) (source : String) :
    (console.run o source).1 = (runSource o source).result := rfl

theorem result_interpret (i : Interpreter) (source : String) :
    (i.interpret source).1.result = (runSource i.options source).result := by
  unfold Interpreter.interpret runSource compileSource executeChunk
  cases hc : (compile i.options source).result with
  | error e => simp only [hc]
  | ok c =>
      cases hr : (Machine.execute i.options c).result.result with
      | error e =>
          simp only [hc, Interpreter.runChunk_eq, hr]
          rfl
      | ok value =>
          simp only [hc, Interpreter.runChunk_eq, hr]
          rfl

theorem runSource_of_error {o : Options} {source : String} {e : CompileError}
    (h : (compile o source).result = .error e) :
    (runSource o source).result = .error (.compile e) := by
  simp only [runSource, compileSource, h]

theorem run_of_diagnostic {o : Options} {source : String} {d : Diagnostic}
    (h : (Compile.State.finish source o.maxNesting).diagnostic = some d) (console : Console) :
    (console.run o source).1 = .error (.compile ⟨[d]⟩) := by
  rw [result_run]
  apply runSource_of_error
  rw [compile_result, h]

theorem runSource_of_ok {o : Options} {source : String} {c : Chunk} {e : Expr}
    (hc : (compile o source).result = .ok c)
    (he : Spells .sum (TokenStream.ofSource source).tokens e) :
    (runSource o source).result =
      match e.overflowLine? o.stackMax with
      | some line => .error (.runtime ⟨.stackOverflow o.stackMax, line⟩)
      | none => .ok e.eval := by
  obtain ⟨hrun, _⟩ := Machine.execute_compiled o hc he
  simp only [runSource, compileSource, executeChunk, hc, hrun]
  cases e.overflowLine? o.stackMax with
  | some line => rfl
  | none => rfl

/-- A run ends with a diagnostic about a token of the source, with the value of its tree, or at
the first number of the tree that finds the stack full. -/
theorem runSource_cases (o : Options) (source : String) :
    (∃ d, (TokenStream.ofSource source).Blames d ∧
      (runSource o source).result = .error (.compile ⟨[d]⟩)) ∨
    ∃ e, Spells .sum (TokenStream.ofSource source).tokens e ∧ e.nesting ≤ o.maxNesting ∧
      (runSource o source).result =
        match e.overflowLine? o.stackMax with
        | some line => .error (.runtime ⟨.stackOverflow o.stackMax, line⟩)
        | none => .ok e.eval := by
  cases hc : (compile o source).result with
  | error e =>
      obtain ⟨d, rfl, hblames⟩ := compile_eq_error hc
      exact .inl ⟨d, hblames, runSource_of_error hc⟩
  | ok c =>
      obtain ⟨e, he, hnest, _⟩ := Compile.State.finish_sound (compile_eq_ok hc).1
      exact .inr ⟨e, he, hnest, runSource_of_ok hc he⟩

/-- With a stack for as many values as operands may be nested, no run meets a fault: a source
either does not compile or gives the value of its tree, which needs no more room than the
nesting limit says. -/
theorem run_value_or_compileError {o : Options} (h : o.maxNesting ≤ o.stackMax)
    (source : String) :
    (∀ console : Console,
      (∃ e, Spells .sum (TokenStream.ofSource source).tokens e ∧ e.slots ≤ o.maxNesting ∧
        (console.run o source).1 = .ok e.eval) ∨
      ∃ e, (console.run o source).1 = .error (.compile e)) ∧
    ∀ (stack : List Float) (ip : Nat),
      (∃ e, Spells .sum (TokenStream.ofSource source).tokens e ∧ e.slots ≤ o.maxNesting ∧
        ((Interpreter.mk o stack ip).interpret source).1.result = .ok e.eval) ∨
      ∃ e, ((Interpreter.mk o stack ip).interpret source).1.result = .error (.compile e) := by
  have hsource :
      (∃ e, Spells .sum (TokenStream.ofSource source).tokens e ∧ e.slots ≤ o.maxNesting ∧
        (runSource o source).result = .ok e.eval) ∨
      ∃ e, (runSource o source).result = .error (.compile e) := by
    rcases runSource_cases o source with ⟨d, _, hd⟩ | ⟨e, he, hnest, hrun⟩
    · exact .inr ⟨_, hd⟩
    · have hslots : e.slots ≤ o.maxNesting := Nat.le_trans e.slots_le_nesting hnest
      refine .inl ⟨e, he, hslots, ?_⟩
      rw [hrun, (e.overflowLine?_eq_none_iff o.stackMax).mpr (Nat.le_trans hslots h)]
  refine ⟨fun console => hsource, fun stack ip => ?_⟩
  rw [result_interpret]
  exact hsource

theorem run_default_options :
    ({} : Options).maxNesting ≤ ({} : Options).stackMax ∧
      (Console.silent.run {} "-(2)").1 = .ok (-Decimal.read "2") := by
  have he : Spells .sum (TokenStream.ofSource "-(2)").tokens
      (.negate 1 (.group (.number ⟨.number, 2, 1, 1, "2"⟩))) := by
    have htokens : (TokenStream.ofSource "-(2)").tokens =
        [⟨.minus, 0, 1, 1, "-"⟩, ⟨.leftParen, 1, 1, 1, "("⟩, ⟨.number, 2, 1, 1, "2"⟩,
          ⟨.rightParen, 3, 1, 1, ")"⟩] := by
      decide +kernel
    rw [htokens]
    show Spells .sum (_ :: (_ :: [_] ++ [_])) _
    exact .ofProduct (.ofUnary (.negate rfl
      (.group rfl (.ofProduct (.ofUnary (.number rfl))) rfl)))
  obtain ⟨c, hc⟩ := compile_complete (o := {}) he (by decide) (by decide)
  refine ⟨Nat.le_refl 256, ?_⟩
  rcases (run_value_or_compileError (o := {}) (Nat.le_refl 256) "-(2)").1 .silent with
    ⟨e, he', _, hvalue⟩ | ⟨e, hfail⟩
  · rw [he'.unique he] at hvalue
    exact hvalue
  · rw [result_run, runSource_of_ok hc he] at hfail
    cases hfail

end Reckon
