/-
# The language that compiles

A source compiles exactly when its tokens are a sentence of the grammar, nested within
the limit and with no more numbers than one byte can tell apart; the code is then that
of the one tree which the tokens spell (`compile_follows_grammar`).

Soundness and completeness of parsing are stated about states in the middle of a source.
Here they are applied to the state before the first token, and what comes after the
expression is added: the end of the source and the instruction that returns the value.
-/
import Reckon.Proofs.Compile.Actions
import Reckon.Proofs.Compile.Diagnostic
import Reckon.Proofs.Compile.Parse

namespace Reckon

open Reckon.Expr (Phrase Spells Stops)

/-- A sentence holds no misspelled token. -/
theorem Expr.Spells.kind_ne_fault {q : Phrase} {ts : List Token} {e : Expr}
    (h : Spells q ts e) : ∀ t ∈ ts, t.kind ≠ .fault := by
  induction h with
  | number ht =>
      intro t hmem
      rw [List.mem_singleton.mp hmem, ht]
      decide
  | negate ht _ ih =>
      intro t hmem
      rcases List.mem_cons.mp hmem with rfl | hmem
      · rw [ht]; decide
      · exact ih t hmem
  | group hl _ hr ih =>
      intro t hmem
      rcases List.mem_append.mp hmem with hmem | hmem
      · rcases List.mem_cons.mp hmem with rfl | hmem
        · rw [hl]; decide
        · exact ih t hmem
      · rw [List.mem_singleton.mp hmem, hr]
        decide
  | ofUnary _ ih => exact ih
  | ofProduct _ ih => exact ih
  | @product op _ _ _ _ _ _ _ ht _ iha ihb | @sum op _ _ _ _ _ _ _ ht _ iha ihb =>
      intro t hmem
      rcases List.mem_append.mp hmem with hmem | hmem
      · exact iha t hmem
      · rcases List.mem_cons.mp hmem with rfl | hmem
        · rw [ht]; exact op.kind_ne_fault
        · exact ihb t hmem

namespace Compile.State

/-! ## The pool -/

/-- There are never more constants than one byte can number. -/
theorem kept_room : Kept (fun s => s.chunk.constants.size ≤ maxConstants) where
  advance := fun h => by rw [chunk_advance]; exact h
  blame := fun _ _ h => by rw [chunk_report]; exact h
  blamePassed := fun h => by rw [chunk_report, chunk_advance]; exact h
  writeOp := fun _ _ _ h => h
  writeNumber := by
    intro s h _
    rw [← chunk_advance] at h
    unfold writeNumber writeConstant
    split
    · simp only
      split
      · rw [chunk_report]
        exact h
      · next hfull =>
        show (s.advance.chunk.constants.values.push _).size ≤ maxConstants
        rw [Array.size_push]
        exact Nat.lt_of_not_le hfull
    · rw [chunk_report]
      exact h

/-! ## Whole sources -/

theorem awaits_first {source : String} (h : (start source).advance.diagnostic = none) :
    (start source).advance.Awaits (TokenStream.ofSource source).eof
      (TokenStream.ofSource source).tokens :=
  (advance_of_clear h fun _ => TokenStream.kind_ne_eof_of_mem).2

theorem finish_sound {source : String} {maxNesting : Nat}
    (h : (finish source maxNesting).diagnostic = none) :
    ∃ e, Spells .sum (TokenStream.ofSource source).tokens e ∧ e.nesting ≤ maxNesting ∧
      e.literals.length ≤ maxConstants ∧
      (finish source maxNesting).chunk.code.toList =
        e.program (TokenStream.ofSource source).endLine ∧
      (finish source maxNesting).chunk.constants.values.toList = e.constants := by
  have hconsumed : (((start source).advance.parse maxNesting .assignment).consume .eof
      .expectEnd).diagnostic = none := h
  have hparsed := clear_of_consume (by decide) hconsumed
  have hfirst := clear_of_parse hparsed
  obtain ⟨us, rest, e, hts, hspells, hnest, _, hyields⟩ :=
    parse_sound _ _ _ _ _ (awaits_first hfirst) hparsed
  obtain ⟨hend, hadvance⟩ := consume_of_clear hconsumed
  have hrest : rest = [] := hyields.awaits.eq_nil hend
  subst hrest
  rw [List.append_nil] at hts
  subst hts
  have hempty : (start source).advance.chunk = Chunk.empty := chunk_advance _
  have hchunk : (finish source maxNesting).chunk =
      ((start source).advance.parse maxNesting .assignment).chunk.write Opcode.ret.toByte
        (TokenStream.ofSource source).endLine := by
    unfold finish
    simp only [hadvance, chunk_writeOp, chunk_advance, previous_advance, hyields.awaits.current]
    rfl
  refine ⟨e, hspells, hnest, ?_, ?_, ?_⟩
  · have hroom := kept_room.parse maxNesting .assignment (s := (start source).advance)
      (by rw [hempty]; exact Nat.zero_le _)
    rw [hyields.gains.size, hempty] at hroom
    exact Nat.le_trans (Nat.le_add_left ..) hroom
  · rw [hchunk, Chunk.code_write, hyields.gains.code, hempty]
    rfl
  · rw [hchunk, Chunk.constants_write, hyields.gains.constants, hempty]
    rfl

/-- A sentence is ahead of the parser as a phrase with nothing after it. -/
theorem first_of_spells {source : String} {e : Expr}
    (hspells : Spells .sum (TokenStream.ofSource source).tokens e) :
    (start source).advance.diagnostic = none ∧
      (start source).advance.Awaits (TokenStream.ofSource source).eof
        ((TokenStream.ofSource source).tokens ++ []) ∧
      ∀ t ∈ (TokenStream.ofSource source).tokens ++ [], Readable t := by
  have hfirst : (start source).advance.diagnostic = none := by
    refine diagnostic_advance_eq_none_iff.mpr ⟨rfl, fun t ht => ?_⟩
    exact hspells.kind_ne_fault t (List.mem_of_mem_head? ht)
  rw [List.append_nil]
  exact ⟨hfirst, awaits_first hfirst,
    fun t ht => ⟨hspells.kind_ne_fault t ht, TokenStream.isNumeral_of_mem ht⟩⟩

theorem finish_complete {source : String} {maxNesting : Nat} {e : Expr}
    (hspells : Spells .sum (TokenStream.ofSource source).tokens e)
    (hnest : e.nesting ≤ maxNesting) (hroom : e.literals.length ≤ maxConstants) :
    (finish source maxNesting).diagnostic = none := by
  obtain ⟨hfirst, hawaits, hread⟩ := first_of_spells hspells
  obtain ⟨hparsed, hyields⟩ := (parse_complete hspells).parse (p := .assignment) (by decide)
    hawaits hfirst hread hnest (by rw [chunk_advance]; exact (Nat.zero_add _).symm ▸ hroom)
    (fun _ => .nil _) (.nil _)
  have hend : ((start source).advance.parse maxNesting .assignment).current.kind = .eof := by
    rw [hyields.awaits.current]
    rfl
  unfold finish
  simp only [consume, if_pos hend, diagnostic_writeOp]
  refine diagnostic_advance_eq_none_iff.mpr ⟨hparsed, fun t ht => ?_⟩
  rw [hyields.awaits.tokens] at ht
  cases ht

end Compile.State

open Compile (maxConstants)
open Compile.State

theorem compile_eq_ok {o : Options} {source : String} {c : Chunk}
    (h : (compile o source).result = .ok c) :
    (finish source o.maxNesting).diagnostic = none ∧ c = (finish source o.maxNesting).chunk := by
  rw [compile_result] at h
  split at h
  · cases h
  · next hd =>
    cases h
    exact ⟨hd, rfl⟩

theorem compile_eq_error {o : Options} {source : String} {e : CompileError}
    (h : (compile o source).result = .error e) :
    ∃ d, e = ⟨[d]⟩ ∧ (TokenStream.ofSource source).Blames d := by
  rw [compile_result] at h
  split at h
  · next d hd =>
    cases h
    exact ⟨d, rfl, blames_of_finish hd⟩
  · cases h

/-- What compiles is a sentence within the limits, and its code is that of every tree which it
spells; there is only one. -/
theorem compile_sound {o : Options} {source : String} {c : Chunk} {e : Expr}
    (h : (compile o source).result = .ok c)
    (he : Spells .sum (TokenStream.ofSource source).tokens e) :
    e.nesting ≤ o.maxNesting ∧ e.literals.length ≤ maxConstants ∧
      c.code.toList = e.program (TokenStream.ofSource source).endLine ∧
      c.constants.values.toList = e.constants := by
  obtain ⟨hd, rfl⟩ := compile_eq_ok h
  obtain ⟨e', he', hlimits⟩ := finish_sound hd
  rw [he.unique he']
  exact hlimits

theorem compile_complete {o : Options} {source : String} {e : Expr}
    (he : Spells .sum (TokenStream.ofSource source).tokens e) (hnest : e.nesting ≤ o.maxNesting)
    (hroom : e.literals.length ≤ maxConstants) : ∃ c, (compile o source).result = .ok c := by
  rw [compile_result, finish_complete he hnest hroom]
  exact ⟨_, rfl⟩

/-- A source compiles exactly when none of its tokens is a fault, they spell a sum, the sum is
nested within the limit and it has at most 256 numbers.  The constants are then the values of
the numbers in the order of the source, the code is that of the tree and returns its value,
and no source is refused because of the form of a number. -/
theorem compile_follows_grammar (o : Options) (source : String) :
    ((∃ c, (compile o source).result = .ok c) ↔
      (∀ t ∈ (TokenStream.ofSource source).tokens, t.kind ≠ .fault) ∧
      (∃ e, Spells .sum (TokenStream.ofSource source).tokens e ∧ e.nesting ≤ o.maxNesting) ∧
      ((TokenStream.ofSource source).tokens.filter fun t => t.kind = .number).length ≤ 256) ∧
    (∀ c e, (compile o source).result = .ok c →
      Spells .sum (TokenStream.ofSource source).tokens e →
      c.constants.values.toList =
        ((TokenStream.ofSource source).tokens.filter fun t => t.kind = .number).map
          (fun t => Decimal.read t.lexeme) ∧
      c.code.toList = e.program (TokenStream.ofSource source).endLine) ∧
    (∀ t ∈ (TokenStream.ofSource source).tokens, t.kind = .number →
      Decimal.read? t.lexeme = some (Decimal.read t.lexeme)) ∧
    ∀ e, (compile o source).result = .error e →
      ∀ d ∈ e.diagnostics, d.message ≠ "Invalid number literal." := by
  refine ⟨⟨?_, ?_⟩, ?_, ?_, ?_⟩
  · rintro ⟨c, hc⟩
    obtain ⟨hd, _⟩ := compile_eq_ok hc
    obtain ⟨e, he, hnest, hroom, _⟩ := finish_sound hd
    refine ⟨he.kind_ne_fault, ⟨e, he, hnest⟩, ?_⟩
    rw [he.literals_eq]
    exact hroom
  · rintro ⟨_, ⟨e, he, hnest⟩, hroom⟩
    rw [he.literals_eq] at hroom
    exact compile_complete he hnest hroom
  · intro c e hc he
    obtain ⟨_, _, hcode, hconstants⟩ := compile_sound hc he
    rw [he.literals_eq]
    exact ⟨hconstants, hcode⟩
  · intro t ht hkind
    exact Decimal.read?_of_isNumeral (TokenStream.isNumeral_of_mem ht hkind)
  · intro e he d hd
    obtain ⟨d', rfl, hblames⟩ := compile_eq_error he
    rw [List.mem_singleton.mp hd]
    exact message_ne_invalidNumber hblames

end Reckon
