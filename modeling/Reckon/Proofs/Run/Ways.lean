/-
# Ways to run a source

A source can be run in one go, in two calls of which the first compiles it and the second
executes its code, or by an interpreter.  The first two build a compiler and a machine for
every call and put their errors into one type; an interpreter has both at hand and calls them
one after the other.

All three compile with the same limit and run the same chunk with the same limit, so they end
alike.  What they print comes from the compiler and from the machine; notes about the calls
stand between the two but print nothing (`texts_runSource`).  So they print the same, except
that an interpreter does not list tokens (`texts_interpret`, `run_ways_agree`).
-/
import Reckon.Proofs.Run.Profile

namespace Reckon

/-- Whether tokens are listed is nothing to the machine: it passes the same places and lets out
the same events. -/
theorem Machine.execute_listTokens (o : Options) (listTokens : Bool) (c : Chunk) :
    execute { o with listTokens } c = execute o c := by
  obtain ⟨passed, last, r, hpath, hends, hrun⟩ := exists_path o c ⟨0, []⟩
  have hrun' : runFrom { o with listTokens } c 0 [] =
      ⟨⟨r, last.readTo c⟩, (passed ++ [last]).flatMap (placeEvents o c) ++ endEvents r⟩ :=
    runFrom_of_path (o := { o with listTokens }) hpath hends
  simp only [execute, executeFrom, hrun, hrun']

/-- A run ends as the later of its two halves that takes place. -/
theorem result_runSource (o : Options) (source : String) :
    (runSource o source).result =
      match (compile o source).result with
      | .error e => .error (.compile e)
      | .ok c => (executeChunk o c).result.mapError .runtime := by
  have hcompiled : (compileSource o source).result = (compile o source).result := rfl
  simp only [runSource, hcompiled]
  cases (compile o source).result with
  | error e => rfl
  | ok c =>
      simp only
      cases (executeChunk o c).result <;> rfl

/-! ## What is printed -/

theorem texts_cons_note (n : Note) (events : List Event) :
    (Event.note n :: events).filterMap Event.text? = events.filterMap Event.text? := rfl

section
variable (o : Options) (source : String)

/-- The listing of the tokens, if it is asked for. -/
def tokenListing : List String :=
  if o.listTokens then [(TokenStream.ofSource source).listing] else []

theorem texts_compileSource :
    (compileSource o source).texts = tokenListing o source ++ (compile o source).texts := by
  have hlisted : (listTokens o source).filterMap Event.text? = tokenListing o source := by
    unfold listTokens tokenListing
    split <;> rfl
  unfold compileSource
  cases hresult : (compile o source).result with
  | error e => simp [hresult, Traced.texts, hlisted, texts_cons_note]
  | ok c => simp [hresult, Traced.texts, hlisted, texts_cons_note]

theorem texts_executeChunk (c : Chunk) :
    (executeChunk o c).texts = (Machine.execute o c).texts := by
  unfold executeChunk
  cases hresult : (Machine.execute o c).result.result with
  | error e => simp [hresult, Traced.texts]
  | ok value => simp [hresult, Traced.texts, texts_cons_note]

/-- A run prints what its two halves print. -/
theorem texts_runSource :
    (runSource o source).texts =
      (compileSource o source).texts ++
        match (compile o source).result with
        | .error _ => []
        | .ok c => (executeChunk o c).texts := by
  have hcompiled : (compileSource o source).result = (compile o source).result := rfl
  simp only [runSource, hcompiled]
  cases (compile o source).result with
  | error e => simp [Traced.texts, texts_cons_note]
  | ok c =>
      simp only
      cases (executeChunk o c).result <;> simp [Traced.texts, texts_cons_note]

end

/-- An interpreter prints what a run prints after the tokens, whatever it was told about listing
them and whatever its stack holds. -/
theorem texts_interpret (o : Options) (listTokens : Bool) (stack : List Float) (ip : Nat)
    (source : String) :
    (runSource o source).texts = tokenListing o source ++
      ((Interpreter.mk { o with listTokens } stack ip).interpret source).1.texts := by
  have hcompile : compile { o with listTokens } source = compile o source := rfl
  rw [texts_runSource, texts_compileSource, List.append_assoc]
  simp only [Interpreter.interpret, Interpreter.runChunk_eq, hcompile]
  cases (compile o source).result with
  | error e => simp [Traced.texts]
  | ok c =>
      simp only [Machine.execute_listTokens, texts_executeChunk]
      simp [Traced.texts]

/-! ## Under a profile -/

namespace Profile

/-- Compiles a source under a profile and then, if it compiles, executes its code. -/
def compileThenExecute (p : Profile) (cs : Consoles) (source : String) :
    Except Failure Float × Consoles :=
  match p.compile cs source with
  | (.error f, after) => (.error f, after)
  | (.ok chunk, after) => p.execute after chunk

/-- Lets an interpreter run a source under a profile. -/
def interpret (p : Profile) (cs : Consoles) (i : Interpreter) (source : String) :
    Except Failure Float × Consoles :=
  let (result, after) := p.perform cs (i.interpret source).1
  (result.mapError RunError.toFailure, after)

section
variable (p : Profile) (cs : Consoles)

theorem compile_result (source : String) :
    (p.compile cs source).1 = (Reckon.compile p.options source).result.mapError .compile := rfl

theorem execute_result (chunk : Chunk) :
    (p.execute cs chunk).1 = (executeChunk p.options chunk).result.mapError .runtime := rfl

theorem run_result (source : String) :
    (p.run cs source).1 = (runSource p.options source).result.mapError RunError.toFailure := rfl

/-- Two calls end as one and print as one. -/
theorem compileThenExecute_outcome (source : String) :
    (p.compileThenExecute cs source).1 =
        (runSource p.options source).result.mapError RunError.toFailure ∧
      p.Prints cs (p.compileThenExecute cs source).2 (runSource p.options source).texts := by
  have hresult := p.compile_result cs source
  have hprints : p.Prints cs (p.compile cs source).2 (compileSource p.options source).texts :=
    prints_perform cs _
  rw [result_runSource, texts_runSource]
  unfold compileThenExecute
  generalize p.compile cs source = compiled at hresult hprints ⊢
  obtain ⟨result, after⟩ := compiled
  cases hc : (Reckon.compile p.options source).result with
  | error e =>
      rw [hc] at hresult
      cases hresult
      exact ⟨rfl, hprints.trans (.nil after)⟩
  | ok chunk =>
      rw [hc] at hresult
      cases hresult
      refine ⟨?_, hprints.trans (prints_perform after _)⟩
      show (executeChunk p.options chunk).result.mapError _ =
        ((executeChunk p.options chunk).result.mapError RunError.runtime).mapError _
      cases (executeChunk p.options chunk).result <;> rfl

end

/-- Running a source in one go, in two calls or by an interpreter gives the same value or the
same failure, whatever the consoles, the state that the interpreter is in and what it was told
about listing tokens.  All three print the same, where the profile says; only, if the tokens are
to be listed, the first two print that listing before what the interpreter prints. -/
theorem run_ways_agree (p : Profile) (cs : Consoles) (source : String) (listTokens : Bool)
    (stack : List Float) (ip : Nat) :
    let i : Interpreter := ⟨{ p.options with listTokens }, stack, ip⟩
    let written := (i.interpret source).1.texts
    let listed := tokenListing p.options source
    (p.run cs source).1 = (p.interpret cs i source).1 ∧
    (p.run cs source).1 = (p.compileThenExecute cs source).1 ∧
    p.Prints cs (p.interpret cs i source).2 written ∧
    p.Prints cs (p.run cs source).2 (listed ++ written) ∧
    p.Prints cs (p.compileThenExecute cs source).2 (listed ++ written) ∧
    (p.options.listTokens = false → ∀ k : Nat,
      (p.run cs source).2[k]?.map Console.texts =
        (p.interpret cs i source).2[k]?.map Console.texts ∧
      (p.compileThenExecute cs source).2[k]?.map Console.texts =
        (p.interpret cs i source).2[k]?.map Console.texts) := by
  intro i written listed
  have hresult : (i.interpret source).1.result = (runSource p.options source).result :=
    (result_interpret i source).trans
      (runSource_watched p.options source listTokens p.options.listCode p.options.traceRun)
  have htexts : (runSource p.options source).texts = listed ++ written :=
    texts_interpret p.options listTokens stack ip source
  obtain ⟨htwo, htwoPrints⟩ := p.compileThenExecute_outcome cs source
  have hrunPrints : p.Prints cs (p.run cs source).2 _ := prints_run cs source
  have hinterpretPrints : p.Prints cs (p.interpret cs i source).2 written := prints_perform cs _
  rw [htexts] at htwoPrints hrunPrints
  refine ⟨?_, htwo.symm, hinterpretPrints, hrunPrints, htwoPrints, fun hoff k => ?_⟩
  · show _ = (i.interpret source).1.result.mapError _
    rw [run_result, hresult]
  · have hlisted : listed = [] := by
      simp [listed, tokenListing, hoff]
    rw [hlisted, List.nil_append] at hrunPrints htwoPrints
    exact ⟨(hrunPrints k).trans (hinterpretPrints k).symm,
      (htwoPrints k).trans (hinterpretPrints k).symm⟩

end Profile

end Reckon
