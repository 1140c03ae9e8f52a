/-
# Compiling does not depend on layout

The compiler reads the kinds and the lexemes of tokens, and takes their lines along.  Two
states that agree but for places and lines (`Alike`) still agree after any step, and so
after a whole parse (`Alike.parse`): both write the same bytes and the same constants, and
both complain about the same thing or not at all.

Writing the tokens of a source down with other separators keeps their kinds and lexemes, so
it keeps what the source compiles to (`compile_ignores_layout`).
-/
import Reckon.Proofs.Compile.Language
import Reckon.Proofs.Token.Layout

namespace Reckon

/-- What a diagnostic says, on whatever line. -/
def Diagnostic.content (d : Diagnostic) : Location × String := (d.location, d.message)

@[simp]
theorem Chunk.bytes_write (c : Chunk) (byte : UInt8) (line : Nat) :
    (c.write byte line).bytes = c.bytes.push byte :=
  Array.map_push ..

namespace Compile.State

/-- `s.Alike t`: the states differ in places, lines and events only. -/
structure Alike (s t : State) : Prop where
  previous : s.previous.content = t.previous.content
  current : s.current.content = t.current.content
  tokens : s.stream.tokens.map Token.content = t.stream.tokens.map Token.content
  bytes : s.chunk.bytes = t.chunk.bytes
  constants : s.chunk.constants = t.chunk.constants
  diagnostic : s.diagnostic.map Diagnostic.content = t.diagnostic.map Diagnostic.content

theorem kind_eq_of_content {t u : Token} (h : t.content = u.content) : t.kind = u.kind :=
  congrArg Prod.fst h

theorem lexeme_eq_of_content {t u : Token} (h : t.content = u.content) : t.lexeme = u.lexeme :=
  congrArg Prod.snd h

theorem location_eq_of_content {t u : Token} (h : t.content = u.content) :
    location t = location u := by
  unfold location
  rw [kind_eq_of_content h, lexeme_eq_of_content h]

@[simp]
theorem previous_report (s : State) (t : Token) (message : String) :
    (s.report t message).previous = s.previous := by
  unfold report
  split <;> rfl

section
variable {s t : State}

/-! ## Single steps -/

theorem Alike.note (h : s.Alike t) (m n : Note) : (s.note m).Alike (t.note n) :=
  ⟨h.previous, h.current, h.tokens, h.bytes, h.constants, h.diagnostic⟩

theorem Alike.report (h : s.Alike t) {u v : Token} (huv : u.content = v.content)
    (message : String) : (s.report u message).Alike (t.report v message) where
  previous := by rw [previous_report, previous_report, h.previous]
  current := by rw [current_report, current_report, h.current]
  tokens := by rw [stream_report, stream_report, h.tokens]
  bytes := by rw [chunk_report, chunk_report, h.bytes]
  constants := by rw [chunk_report, chunk_report, h.constants]
  diagnostic := by
    have hnew : Diagnostic.content ⟨u.line, location u, message⟩ =
        Diagnostic.content ⟨v.line, location v, message⟩ := by
      rw [Diagnostic.content, Diagnostic.content, location_eq_of_content huv]
    rw [diagnostic_report, diagnostic_report, Option.map_some, Option.map_some,
      ← Option.getD_map Diagnostic.content, ← Option.getD_map Diagnostic.content, h.diagnostic,
      hnew]

theorem Alike.fetch {ts us : List Token} (hts : ts.map Token.content = us.map Token.content)
    (h : s.Alike t) : (s.fetch ts).Alike (t.fetch us) := by
  induction ts generalizing us s t with
  | nil =>
      obtain rfl := List.map_eq_nil_iff.mp hts.symm
      exact ⟨h.current, rfl, rfl, h.bytes, h.constants, h.diagnostic⟩
  | cons u ts ih =>
      cases us with
      | nil => cases hts
      | cons v us =>
          obtain ⟨huv, hrest⟩ := List.cons.inj hts
          have hkind := kind_eq_of_content huv
          have hnoted := h.note (.scanned u) (.scanned v)
          by_cases hfault : u.kind = .fault
          · rw [State.fetch, if_pos hfault, State.fetch, if_pos (hkind ▸ hfault),
              lexeme_eq_of_content huv]
            exact ih hrest (hnoted.report huv _)
          · rw [State.fetch, if_neg hfault, State.fetch, if_neg (hkind ▸ hfault)]
            exact ⟨h.current, huv, hrest, h.bytes, h.constants, h.diagnostic⟩

theorem Alike.advance (h : s.Alike t) : s.advance.Alike t.advance :=
  h.fetch h.tokens

theorem Alike.consume (h : s.Alike t) (kind : Kind) (complaint : Complaint) :
    (s.consume kind complaint).Alike (t.consume kind complaint) := by
  unfold State.consume
  rw [kind_eq_of_content h.current]
  split
  · exact h.advance
  · exact h.report h.current _

theorem Alike.write (h : s.Alike t) (byte : UInt8) (line line' : Nat) :
    (s.write byte line).Alike (t.write byte line') where
  previous := h.previous
  current := h.current
  tokens := h.tokens
  bytes := by
    show (s.chunk.write byte line).bytes = (t.chunk.write byte line').bytes
    rw [Chunk.bytes_write, Chunk.bytes_write, h.bytes]
  constants := h.constants
  diagnostic := h.diagnostic

theorem Alike.writeOp (h : s.Alike t) (op : Opcode) (line line' : Nat) :
    (s.writeOp op line).Alike (t.writeOp op line') :=
  h.write _ _ _

theorem Alike.pool (h : s.Alike t) (value : Float) :
    Alike { s with chunk := s.chunk.addConstant value }
      { t with chunk := t.chunk.addConstant value } where
  previous := h.previous
  current := h.current
  tokens := h.tokens
  bytes := h.bytes
  constants := congrArg (Pool.push · value) h.constants
  diagnostic := h.diagnostic

theorem Alike.writeNumber (h : s.Alike t) : s.writeNumber.Alike t.writeNumber := by
  unfold State.writeNumber
  rw [lexeme_eq_of_content h.previous]
  split
  · next value _ =>
    unfold writeConstant
    simp only [h.constants]
    split
    · exact h.report h.previous _
    · exact (((h.pool value).note _ _).writeOp _ _ _).write _ _ _
  · exact h.report h.previous _

/-! ## Parsing -/

theorem parseOperators_of_stopped {p : Precedence} (budget : Nat) {u : Token}
    (hstop : Expr.Stops p [u]) (hkind : s.current.kind = u.kind) :
    s.parseOperators budget p = s := by
  rw [parseOperators_eq]
  cases hop : Operator.ofKind? s.current.kind with
  | none => rfl
  | some op =>
      have hlt := hstop u rfl op (hkind.symm.trans (Operator.ofKind?_eq_some_iff.mp hop))
      exact if_neg (Nat.not_le_of_lt hlt)

theorem Alike.operators {budget : Nat}
    (hparse : ∀ (p : Precedence) {s t : State}, s.Alike t →
      (s.parse budget p).Alike (t.parse budget p))
    (p : Precedence) : ∀ s t : State, s.Alike t →
      (s.parseOperators budget p).Alike (t.parseOperators budget p) := by
  refine operators_induct budget p ?_ ?_
  · intro s hs hstop t h
    rw [hs, parseOperators_of_stopped budget hstop (kind_eq_of_content h.current).symm]
    exact h
  · intro s op hkind hp hs hrest t h
    have ht := parseOperators_of_operator budget
      ((kind_eq_of_content h.current).symm.trans hkind) hp
    rw [hs, ht]
    exact hrest _ ((hparse _ h.advance).writeOp _ _ _)

/-- Parsing states that differ in places and lines only leads to such states again. -/
theorem Alike.parse (budget : Nat) : ∀ (p : Precedence) {s t : State}, s.Alike t →
    (s.parse budget p).Alike (t.parse budget p) := by
  induction budget with
  | zero =>
      intro p s t h
      rw [parse_zero, parse_zero]
      exact h.report h.current _
  | succ budget ih =>
      intro p s t h
      rw [parse_succ, parse_succ, kind_eq_of_content h.advance.previous]
      split
      · exact Alike.operators ih p _ _ h.advance.writeNumber
      · exact Alike.operators ih p _ _ ((ih _ h.advance).consume _ _)
      · exact Alike.operators ih p _ _ ((ih _ h.advance).writeOp _ _ _)
      · exact h.advance.report h.advance.previous _

theorem alike_finish {source source' : String}
    (h : (TokenStream.ofSource source).tokens.map Token.content =
      (TokenStream.ofSource source').tokens.map Token.content) (maxNesting : Nat) :
    (finish source maxNesting).Alike (finish source' maxNesting) := by
  have hstart : (start source).Alike (start source') := ⟨rfl, rfl, h, rfl, rfl, rfl⟩
  exact ((Alike.parse maxNesting _ hstart.advance).consume _ _).writeOp _ _ _

end

end Compile.State

/-- `SameOutcome r r'`: the same code and constants, or one diagnostic each, with the same place
and message.  Lines may differ. -/
inductive SameOutcome : Except CompileError Chunk → Except CompileError Chunk → Prop
  | ok {c c' : Chunk} : c.bytes = c'.bytes → c.constants = c'.constants →
      SameOutcome (.ok c) (.ok c')
  | error {d d' : Diagnostic} : d.location = d'.location → d.message = d'.message →
      SameOutcome (.error ⟨[d]⟩) (.error ⟨[d']⟩)

theorem sameOutcome_of_alike {o : Options} {source source' : String}
    (h : (Compile.State.finish source o.maxNesting).Alike
      (Compile.State.finish source' o.maxNesting)) :
    SameOutcome (compile o source).result (compile o source').result := by
  rw [compile_result, compile_result]
  have hdiagnostic := h.diagnostic
  cases hd : (Compile.State.finish source o.maxNesting).diagnostic with
  | none =>
      rw [hd] at hdiagnostic
      rw [Option.map_eq_none_iff.mp hdiagnostic.symm]
      exact .ok h.bytes h.constants
  | some d =>
      rw [hd] at hdiagnostic
      obtain ⟨d', hd', hcontent⟩ := Option.map_eq_some_iff.mp hdiagnostic.symm
      rw [hd']
      exact .error (congrArg Prod.fst hcontent).symm (congrArg Prod.snd hcontent).symm

/-- Let the tokens of a source without misspellings be written down with other separators between
them.  Scanning what is written gives the same kinds and lexemes in the same order, and compiling
it gives the same code and constants, or a diagnostic with the same place and message. -/
theorem compile_ignores_layout {source source' : String}
    (hclean : ∀ t ∈ (TokenStream.ofSource source).tokens, t.kind ≠ .fault)
    (h : Spaced (TokenStream.ofSource source).tokens source'.toList) :
    (TokenStream.ofSource source').toList.map Token.content =
        (TokenStream.ofSource source).toList.map Token.content ∧
      ∀ o : Options, SameOutcome (compile o source).result (compile o source').result := by
  have htokens := TokenStream.content_ofSource_of_spaced hclean h
  refine ⟨?_, fun o => sameOutcome_of_alike (Compile.State.alike_finish htokens.symm _)⟩
  rw [TokenStream.toList, TokenStream.toList, List.map_append, List.map_append, htokens]
  rfl

theorem compile_quotient_over_lines :
    let tokens := (TokenStream.ofSource "8/-2").tokens
    let source' := "8 // eight\n/\t-\r\n2\n"
    (∀ t ∈ tokens, t.kind ≠ .fault) ∧ Spaced tokens source'.toList ∧
      (TokenStream.ofSource source').toList.map Token.content =
        (TokenStream.ofSource "8/-2").toList.map Token.content ∧
      ∀ o : Options, SameOutcome (compile o "8/-2").result (compile o source').result := by
  intro tokens source'
  have htokens : tokens = [⟨.number, 0, 1, 1, "8"⟩, ⟨.slash, 1, 1, 1, "/"⟩, ⟨.minus, 2, 1, 1, "-"⟩,
      ⟨.number, 3, 1, 1, "2"⟩] := by
    decide +kernel
  have hclean : ∀ t ∈ tokens, t.kind ≠ .fault := by
    rw [htokens]
    decide
  have hspaced : Spaced tokens source'.toList := by
    rw [htokens]
    have hcomment : Separator " // eight\n".toList :=
      .ofBlank (by decide) (@Padding.comment " eight".toList [] (by decide) (by decide) .nil)
    have htab : Separator ['\t'] := .ofBlank (by decide) .nil
    have hreturn : Separator ['\r', '\n'] := .ofBlank (by decide) (.blank (by decide) .nil)
    have hnewline : Separator ['\n'] := .ofBlank (by decide) .nil
    show Spaced _ "8 // eight\n/\t-\r\n2\n".toList
    exact .next _ hcomment (.next _ htab (.next _ hreturn (.next _ hnewline .nil)))
  exact ⟨hclean, hspaced, compile_ignores_layout hclean hspaced⟩

end Reckon
