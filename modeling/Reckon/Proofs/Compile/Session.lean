/-
# The steps of a compilation

Parsing is made of a few steps: moving on by a token, writing code, blaming a token.
This module says once what each of them does, in the form in which inductions over a
parse use it.

* `Kept`: a property that every step keeps is kept by parsing, whatever the tokens are.
  The first diagnostic is one such property: once there, it stays (`kept_diagnostic`),
  so a parse that ends without one had none anywhere on its way.
* `Awaits`: which tokens a state has still to read.
* `Gains`: that a chunk got the code and the constants of a tree.

The lemmas about single steps all have the same shape: if the state after the step has
no diagnostic, then this is what the step did.  Both directions of the grammar theorem
use them; where the absence of a diagnostic is not given, it has a lemma of its own.
-/
import Reckon.Compile.Basic
import Reckon.Proofs.Expr.Unambiguous

namespace Reckon

/-! ## Chunks that get the code of a tree -/

/-- `c.Gains e c'`: the chunk `c'` is `c` with the code and the constants of `e` at its end. -/
structure Chunk.Gains (c : Chunk) (e : Expr) (c' : Chunk) : Prop where
  code : c'.code.toList = c.code.toList ++ e.code c.constants.size
  constants : c'.constants.values.toList = c.constants.values.toList ++ e.constants

namespace Chunk

@[simp]
theorem code_write (c : Chunk) (byte : UInt8) (line : Nat) :
    (c.write byte line).code.toList = c.code.toList ++ [⟨byte, line⟩] :=
  Array.toList_push ..

@[simp]
theorem constants_write (c : Chunk) (byte : UInt8) (line : Nat) :
    (c.write byte line).constants = c.constants := rfl

@[simp]
theorem values_addConstant (c : Chunk) (value : Float) :
    (c.addConstant value).constants.values.toList = c.constants.values.toList ++ [value] :=
  Array.toList_push ..

theorem Gains.size {c c' : Chunk} {e : Expr} (h : c.Gains e c') :
    c'.constants.size = c.constants.size + e.literals.length := by
  have hlen := congrArg List.length h.constants
  rw [List.length_append, Expr.constants, List.length_map] at hlen
  exact hlen

theorem Gains.negate {c c' : Chunk} {e : Expr} (h : c.Gains e c') (line : Nat) :
    c.Gains (.negate line e) (c'.write Opcode.negate.toByte line) where
  code := by rw [code_write, h.code, List.append_assoc]; rfl
  constants := h.constants

theorem Gains.binary {c c₁ c₂ : Chunk} {a b : Expr} (ha : c.Gains a c₁) (hb : c₁.Gains b c₂)
    (op : Operator) (line : Nat) :
    c.Gains (.binary op line a b) (c₂.write op.opcode.toByte line) where
  code := by
    rw [code_write, hb.code, ha.code, ha.size]
    simp only [Expr.code, List.append_assoc]
  constants := by
    rw [constants_write, hb.constants, ha.constants]
    simp only [Expr.constants, Expr.literals, List.map_append, List.append_assoc]

end Chunk

theorem Operator.operandSize_opcode (op : Operator) : op.opcode.operandSize = 0 := by
  cases op <;> rfl

namespace Compile.State

/-- The diagnostic by which a state is muted: the last one.  Short of that there is none, whatever
was reported; and a state that is muted for no reason, to which no compilation comes, is taken to
have an empty one. -/
def diagnostic (s : State) : Option Diagnostic :=
  if s.muted then some (s.diagnostics.getLastD ⟨0, .scan, ""⟩) else none

/-! ## What the steps leave alone -/

@[simp]
theorem current_writeOp (s : State) (op : Opcode) (line : Nat) :
    (s.writeOp op line).current = s.current := rfl

@[simp]
theorem diagnostic_writeOp (s : State) (op : Opcode) (line : Nat) :
    (s.writeOp op line).diagnostic = s.diagnostic := rfl

@[simp]
theorem chunk_writeOp (s : State) (op : Opcode) (line : Nat) :
    (s.writeOp op line).chunk = s.chunk.write op.toByte line := rfl

/-- Blaming a token leaves a diagnostic: the one that was there, or a new one. -/
theorem diagnostic_report (s : State) (t : Token) (message : String) :
    (s.report t message).diagnostic =
      some (s.diagnostic.getD ⟨t.line, location t, message⟩) := by
  unfold report
  split
  · next hmuted =>
    show s.diagnostic = _
    rw [diagnostic, if_pos hmuted]
    rfl
  · next hmuted =>
    have hnone : s.diagnostic = none := if_neg hmuted
    rw [hnone]
    show some (List.getLastD (s.diagnostics ++ [_]) _) = _
    rw [List.getLastD_concat]
    rfl

theorem diagnostic_report_ne_none (s : State) (t : Token) (message : String) :
    (s.report t message).diagnostic ≠ none := by
  rw [diagnostic_report]
  exact Option.some_ne_none _

/-! ## Properties that parsing keeps -/

/-- Every step of parsing keeps `P`.  Only the current token is blamed, or the one that was
just passed; a number is written just after it was passed, and the only operands are its own. -/
structure Kept (P : State → Prop) : Prop where
  advance : ∀ {s : State}, P s → P s.advance
  blame : ∀ {s : State} (c : Complaint), c ≠ .invalidNumber → P s →
    P (s.report s.current c.message)
  blamePassed : ∀ {s : State}, P s →
    P (s.advance.report s.advance.previous Complaint.expectExpression.message)
  writeOp : ∀ {s : State} (op : Opcode) (line : Nat), op.operandSize = 0 → P s →
    P (s.writeOp op line)
  writeNumber : ∀ {s : State}, P s → s.advance.previous.kind = .number →
    P s.advance.writeNumber

theorem Kept.consume {P : State → Prop} (h : Kept P) {s : State} (hs : P s) (kind : Kind)
    {c : Complaint} (hc : c ≠ .invalidNumber) : P (s.consume kind c) := by
  unfold State.consume
  split
  · exact h.advance hs
  · exact h.blame c hc hs

theorem ahead_parse_le (s : State) (budget : Nat) (p : Precedence) :
    (s.parse budget p).ahead ≤ s.ahead :=
  (climb budget p s).property

/-- The tokens ahead of a state never get more, so operators can be followed by induction: at
each state either the operators end, or one operator is read with its right operand. -/
theorem operators_induct (budget : Nat) (p : Precedence) {motive : State → Prop}
    (stop : ∀ s : State, s.parseOperators budget p = s → Expr.Stops p [s.current] → motive s)
    (step : ∀ (s : State) (op : Operator), s.current.kind = op.kind →
      p.rank ≤ op.precedence.rank →
      s.parseOperators budget p =
        ((s.advance.parse budget op.precedence.next).writeOp op.opcode
          s.current.line).parseOperators budget p →
      motive ((s.advance.parse budget op.precedence.next).writeOp op.opcode s.current.line) →
      motive s) :
    ∀ s : State, motive s := by
  intro s
  induction hn : s.ahead using Nat.strongRecOn generalizing s with
  | ind n ih =>
      subst hn
      cases hop : Operator.ofKind? s.current.kind with
      | none =>
          refine stop s ?_ (Expr.Stops.cons fun op hkind => ?_)
          · rw [parseOperators_eq, hop]
          · rw [Operator.ofKind?_eq_some_iff.mpr hkind] at hop
            cases hop
      | some op =>
          have hkind := Operator.ofKind?_eq_some_iff.mp hop
          by_cases hp : p.rank ≤ op.precedence.rank
          · refine step s op hkind hp ?_ (ih _ ?_ _ rfl)
            · rw [parseOperators_eq, hop]
              exact if_pos hp
            · rw [ahead_writeOp]
              refine Nat.lt_of_le_of_lt (ahead_parse_le ..) (ahead_advance_lt ?_)
              rw [hkind]
              exact op.kind_ne_eof
          · refine stop s ?_ (Expr.Stops.cons fun op' hkind' => ?_)
            · rw [parseOperators_eq, hop]
              exact if_neg hp
            · rw [← Operator.kind_injective (hkind.symm.trans hkind')]
              exact Nat.lt_of_not_le hp

theorem Kept.operators {P : State → Prop} (h : Kept P) {budget : Nat}
    (hparse : ∀ (p : Precedence) {s : State}, P s → P (s.parse budget p)) (p : Precedence) :
    ∀ s : State, P s → P (s.parseOperators budget p) := by
  refine operators_induct budget p ?_ ?_
  · intro s heq _ hs
    rw [heq]
    exact hs
  · intro s op _ _ heq hrest hs
    rw [heq]
    exact hrest (h.writeOp _ _ op.operandSize_opcode (hparse _ (h.advance hs)))

theorem Kept.parse {P : State → Prop} (h : Kept P) (budget : Nat) :
    ∀ (p : Precedence) {s : State}, P s → P (s.parse budget p) := by
  induction budget with
  | zero =>
      intro p s hs
      rw [parse_zero]
      exact h.blame _ (by decide) hs
  | succ budget ih =>
      intro p s hs
      rw [parse_succ]
      split
      · next hkind => exact h.operators ih p _ (h.writeNumber hs hkind)
      · exact h.operators ih p _ (h.consume (ih _ (h.advance hs)) _ (by decide))
      · exact h.operators ih p _ (h.writeOp _ _ rfl (ih _ (h.advance hs)))
      · exact h.blamePassed hs

/-! ## The first diagnostic stays -/

theorem diagnostic_fetch {d : Diagnostic} : ∀ (ts : List Token) {s : State},
    s.diagnostic = some d → (s.fetch ts).diagnostic = some d
  | [], _, h => h
  | t :: rest, s, h => by
      unfold fetch
      split
      · refine diagnostic_fetch rest ?_
        rw [diagnostic_report]
        exact congrArg some (congrArg (Option.getD · _) h)
      · exact h

theorem diagnostic_writeNumber {d : Diagnostic} {s : State} (h : s.diagnostic = some d) :
    s.writeNumber.diagnostic = some d := by
  unfold writeNumber writeConstant
  split
  · simp only
    split
    · rw [diagnostic_report, h]
      rfl
    · exact h
  · rw [diagnostic_report, h]
    rfl

theorem kept_diagnostic (d : Diagnostic) : Kept (fun s => s.diagnostic = some d) where
  advance := diagnostic_fetch _
  blame := by
    intro s c _ h
    rw [diagnostic_report, h]
    rfl
  blamePassed := by
    intro s h
    rw [diagnostic_report, advance, diagnostic_fetch _ h]
    rfl
  writeOp := fun _ _ _ h => h
  writeNumber := fun h _ => diagnostic_writeNumber (diagnostic_fetch _ h)

/-- What ends without a diagnostic began without one. -/
theorem clear_of_forall {s s' : State}
    (h : ∀ d, s.diagnostic = some d → s'.diagnostic = some d) (hs' : s'.diagnostic = none) :
    s.diagnostic = none := by
  cases hd : s.diagnostic with
  | none => rfl
  | some d =>
      rw [h d hd] at hs'
      cases hs'

theorem clear_of_advance {s : State} (h : s.advance.diagnostic = none) : s.diagnostic = none :=
  clear_of_forall (fun _ => diagnostic_fetch _) h

theorem clear_of_writeNumber {s : State} (h : s.writeNumber.diagnostic = none) :
    s.diagnostic = none :=
  clear_of_forall (fun _ => diagnostic_writeNumber) h

theorem clear_of_consume {s : State} {kind : Kind} {c : Complaint} (hc : c ≠ .invalidNumber)
    (h : (s.consume kind c).diagnostic = none) : s.diagnostic = none :=
  clear_of_forall (fun d hs => (kept_diagnostic d).consume hs kind hc) h

theorem clear_of_parse {s : State} {budget : Nat} {p : Precedence}
    (h : (s.parse budget p).diagnostic = none) : s.diagnostic = none :=
  clear_of_forall (fun d => (kept_diagnostic d).parse budget p) h

theorem clear_of_operators {s : State} {budget : Nat} {p : Precedence}
    (h : (s.parseOperators budget p).diagnostic = none) : s.diagnostic = none :=
  clear_of_forall (fun d => (kept_diagnostic d).operators ((kept_diagnostic d).parse budget) p s) h

/-! ## Reading the awaited tokens -/

/-- `s.Awaits last ts`: the state `s` has still to read the tokens `ts` and then the end
token `last`; the first of them is the current one. -/
structure Awaits (s : State) (last : Token) (ts : List Token) : Prop where
  current : s.current = ts.headD last
  tokens : s.stream.tokens = ts.tail
  eof : s.stream.eof = last
  inner : ∀ t ∈ ts, t.kind ≠ .eof

/-- What it takes to be in the same place. -/
theorem Awaits.congr {s s' : State} {last : Token} {ts : List Token} (h : s.Awaits last ts)
    (hcurrent : s'.current = s.current) (hstream : s'.stream = s.stream) : s'.Awaits last ts where
  current := hcurrent.trans h.current
  tokens := hstream ▸ h.tokens
  eof := hstream ▸ h.eof
  inner := h.inner

theorem Awaits.kind_last {s : State} {last : Token} {ts : List Token} (h : s.Awaits last ts) :
    last.kind = .eof := by
  rw [← h.eof]
  rfl

/-- Short of the end, the current token is the first of the awaited ones. -/
theorem Awaits.exists_cons {s : State} {last : Token} {ts : List Token} (h : s.Awaits last ts)
    (hcurrent : s.current.kind ≠ .eof) : ∃ rest, ts = s.current :: rest := by
  cases ts with
  | nil =>
      rw [h.current] at hcurrent
      exact absurd h.kind_last hcurrent
  | cons t rest => exact ⟨rest, by rw [h.current]; rfl⟩

theorem Awaits.eq_nil {s : State} {last : Token} {ts : List Token} (h : s.Awaits last ts)
    (hcurrent : s.current.kind = .eof) : ts = [] := by
  cases ts with
  | nil => rfl
  | cons t rest =>
      rw [h.current] at hcurrent
      exact absurd hcurrent (h.inner t List.mem_cons_self)

/-- Where the current token stops a phrase, the awaited tokens do. -/
theorem Awaits.stops {s : State} {last : Token} {ts : List Token} {p : Precedence}
    (h : s.Awaits last ts) (hstop : Expr.Stops p [s.current]) : Expr.Stops p ts := by
  cases ts with
  | nil => exact .nil p
  | cons t rest =>
      rw [h.current] at hstop
      exact .cons (hstop t rfl)

/-- A step from `s` to `s'` that reads the current token and nothing else. -/
structure Passes (s s' : State) : Prop where
  previous : s'.previous = s.current
  chunk : s'.chunk = s.chunk

theorem diagnostic_advance_eq_none_iff {s : State} :
    s.advance.diagnostic = none ↔
      s.diagnostic = none ∧ ∀ t ∈ s.stream.tokens.head?, t.kind ≠ .fault := by
  constructor
  · intro h
    refine ⟨clear_of_advance h, ?_⟩
    intro t ht hfault
    unfold advance at h
    cases hts : s.stream.tokens with
    | nil => rw [hts] at ht; cases ht
    | cons u rest =>
        rw [hts] at ht h
        cases ht
        rw [fetch, if_pos hfault] at h
        exact diagnostic_report_ne_none _ _ _
          (clear_of_forall (fun _ => diagnostic_fetch rest) h)
  · rintro ⟨hs, hclean⟩
    unfold advance
    cases hts : s.stream.tokens with
    | nil => exact hs
    | cons u rest =>
        rw [hts] at hclean
        rw [fetch, if_neg (hclean u rfl)]
        exact hs

/-- Moving on without meeting a fault. -/
theorem advance_of_clear {s : State} (h : s.advance.diagnostic = none)
    (hinner : ∀ t ∈ s.stream.tokens, t.kind ≠ .eof) :
    s.Passes s.advance ∧ s.advance.Awaits s.stream.eof s.stream.tokens := by
  obtain ⟨hs, hclean⟩ := diagnostic_advance_eq_none_iff.mp h
  unfold advance at h ⊢
  cases hts : s.stream.tokens with
  | nil => exact ⟨⟨rfl, rfl⟩, ⟨rfl, rfl, rfl, fun t ht => absurd ht List.not_mem_nil⟩⟩
  | cons u rest =>
      rw [hts] at hclean hinner
      rw [fetch, if_neg (hclean u rfl)]
      exact ⟨⟨rfl, rfl⟩, ⟨rfl, rfl, rfl, hinner⟩⟩

theorem Awaits.advance {s : State} {last t : Token} {ts : List Token}
    (h : s.Awaits last (t :: ts)) (hclear : s.advance.diagnostic = none) :
    s.Passes s.advance ∧ s.advance.Awaits last ts := by
  have htokens : s.stream.tokens = ts := h.tokens
  have hinner : ∀ u ∈ s.stream.tokens, u.kind ≠ .eof := by
    rw [htokens]
    exact fun u hu => h.inner u (List.mem_cons_of_mem _ hu)
  obtain ⟨hpasses, hawaits⟩ := advance_of_clear hclear hinner
  rw [htokens, h.eof] at hawaits
  exact ⟨hpasses, hawaits⟩

/-! ## Writing a number -/

theorem diagnostic_writeNumber_eq_none {s : State} (hs : s.diagnostic = none)
    (hnumeral : Decimal.isNumeral s.previous.lexeme = true)
    (hroom : s.chunk.constants.size < maxConstants) : s.writeNumber.diagnostic = none := by
  unfold writeNumber writeConstant
  rw [Decimal.read?_of_isNumeral hnumeral]
  simp only
  rw [if_neg (Nat.not_le_of_lt hroom)]
  exact hs

theorem writeNumber_of_clear {s : State} (h : s.writeNumber.diagnostic = none) :
    s.chunk.Gains (.number s.previous) s.writeNumber.chunk ∧
      s.chunk.constants.size < maxConstants ∧ s.writeNumber.current = s.current ∧
        s.writeNumber.stream = s.stream := by
  unfold writeNumber writeConstant at h ⊢
  cases hread : Decimal.read? s.previous.lexeme with
  | none =>
      rw [hread] at h
      exact absurd h (diagnostic_report_ne_none _ _ _)
  | some value =>
      rw [hread] at h
      simp only at h ⊢
      split
      · next hfull =>
        rw [if_pos hfull] at h
        exact absurd h (diagnostic_report_ne_none _ _ _)
      · next hfull =>
        refine ⟨⟨?_, ?_⟩, Nat.lt_of_not_le hfull, rfl, rfl⟩
        · show ((_ : Chunk).write _ _).code.toList = _
          rw [Chunk.code_write, chunk_writeOp, Chunk.code_write, List.append_assoc]
          rfl
        · rw [Decimal.eq_read_of_read? hread]
          exact Chunk.values_addConstant ..

end Compile.State

end Reckon
