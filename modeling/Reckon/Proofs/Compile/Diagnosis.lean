/-
# What parsing finds wrong

As long as no limit is hit, what the parser finds wrong can be told in one pass over the
tokens, from the frontier alone (`Frontier.diagnose`).  The parser itself works by recursion,
with precedences and one token read ahead.

* The pass stops at the first token that is a fault or cannot come next.  Only where an
  operand was wanted, the parser has already read one token further when it complains, so a
  fault right after that token comes first.
* Parsing finds what the pass finds (`parse_diagnoses`).  The induction is on the budget, as
  for soundness; what was parsed without a complaint is a phrase, and over a phrase the pass
  moves from wanting an operand to wanting an operator (`diagnose_phrase`).
-/
import Reckon.Proofs.Compile.Language
import Reckon.Proofs.Expr.Frontier

namespace Reckon

open Reckon.Expr (Phrase Spells Stops Frontier)

/-- The diagnostic that blames a token. -/
def Token.blamed (t : Token) (message : String) : Diagnostic :=
  ⟨t.line, Compile.State.location t, message⟩

theorem Token.blamed_eq {t : Token} (ht : t.kind ≠ .fault) (message : String) :
    t.blamed message =
      ⟨t.line, if t.kind = .eof then .atEnd else .token t.lexeme, message⟩ := by
  rw [Token.blamed, Compile.State.location]
  split
  · next heof => rw [if_pos heof]
  · next hfault => exact absurd hfault ht
  · next heof _ => rw [if_neg heof]

/-- The diagnostic of a token that is a fault: its lexeme says what is wrong. -/
def Token.misspelled (t : Token) : Diagnostic :=
  t.blamed t.lexeme

namespace Expr.Frontier

/-- What is said of a token that cannot come next. -/
def complaint : Frontier → Complaint
  | operand _ => .expectExpression
  | operator 0 => .expectEnd
  | operator (_ + 1) => .expectRightParen
  | closed => .expectEnd

/-- The diagnostic about a token that cannot come next, with the tokens after it. -/
def objection (f : Frontier) (t : Token) : List Token → Diagnostic
  | [] => t.blamed f.complaint.message
  | next :: _ =>
    match f with
    | operand _ =>
      if next.kind = .fault then next.misspelled else t.blamed f.complaint.message
    | _ => t.blamed f.complaint.message

/-- The first thing that is wrong with some tokens, if anything is. -/
def diagnose (f : Frontier) : List Token → Option Diagnostic
  | [] => none
  | t :: rest =>
    if t.kind = .fault then some t.misspelled
    else
      match f.step t.kind with
      | some g => g.diagnose rest
      | none => some (f.objection t rest)

theorem diagnose_fault (f : Frontier) {t : Token} (rest : List Token) (ht : t.kind = .fault) :
    f.diagnose (t :: rest) = some t.misspelled :=
  if_pos ht

theorem diagnose_step {f g : Frontier} {t : Token} (rest : List Token) (ht : t.kind ≠ .fault)
    (hstep : f.step t.kind = some g) : f.diagnose (t :: rest) = g.diagnose rest := by
  rw [diagnose, if_neg ht, hstep]

theorem diagnose_stuck {f : Frontier} {t : Token} (rest : List Token) (ht : t.kind ≠ .fault)
    (hstep : f.step t.kind = none) : f.diagnose (t :: rest) = some (f.objection t rest) := by
  rw [diagnose, if_neg ht, hstep]

theorem diagnose_append {f g : Frontier} {us : List Token} (rest : List Token)
    (hclean : ∀ t ∈ us, t.kind ≠ .fault) (hrun : f.run us = some g) :
    f.diagnose (us ++ rest) = g.diagnose rest := by
  induction us generalizing f with
  | nil =>
      cases hrun
      rfl
  | cons t us ih =>
      obtain ⟨f', hstep, hrest⟩ := Option.bind_eq_some_iff.mp hrun
      rw [List.cons_append, diagnose_step _ (hclean t List.mem_cons_self) hstep]
      exact ih (fun u hu => hclean u (List.mem_cons_of_mem _ hu)) hrest

/-- Over a phrase the pass finds nothing. -/
theorem diagnose_phrase {q : Phrase} {us : List Token} {e : Expr} (h : Spells q us e)
    (depth : Nat) (rest : List Token) :
    (operand depth).diagnose (us ++ rest) = (operator depth).diagnose rest :=
  diagnose_append rest h.kind_ne_fault (h.run depth)

/-- A fault after the first token of an operand, or after a token that is no operand. -/
theorem diagnose_operand_fault (depth : Nat) {t next : Token} (rest : List Token)
    (ht : t.kind ≠ .fault) (hnext : next.kind = .fault) :
    (operand depth).diagnose (t :: next :: rest) = some next.misspelled := by
  cases hstep : (operand depth).step t.kind with
  | some g =>
      rw [diagnose_step _ ht hstep]
      exact diagnose_fault g rest hnext
  | none =>
      rw [diagnose_stuck _ ht hstep, objection]
      simp only [if_pos hnext]

/-- A token that begins no operand. -/
theorem step_operand_eq_none {depth : Nat} {k : Kind} (hnumber : k ≠ .number)
    (hparen : k ≠ .leftParen) (hminus : k ≠ .minus) : (operand depth).step k = none := by
  cases hstep : (operand depth).step k with
  | none => rfl
  | some g =>
      obtain ⟨hk, _⟩ | ⟨hk, _⟩ | ⟨hk, _⟩ := step_operand_eq_some hstep
      · exact absurd hk hnumber
      · exact absurd hk hminus
      · exact absurd hk hparen

/-- A token that ends a phrase, and neither closes it nor ends the source. -/
theorem step_operator_eq_none {depth : Nat} {k : Kind} (hop : ∀ op : Operator, k ≠ op.kind)
    (hparen : depth ≠ 0 → k ≠ .rightParen) (heof : depth = 0 → k ≠ .eof) :
    (operator depth).step k = none := by
  cases hstep : (operator depth).step k with
  | none => rfl
  | some g =>
      obtain ⟨hk, n, rfl, _⟩ | ⟨hk, hzero, _⟩ | ⟨op, hk, _⟩ := step_operator_eq_some hstep
      · exact absurd hk (hparen (Nat.succ_ne_zero n))
      · exact absurd hk (heof hzero)
      · exact absurd hk (hop op)

theorem objection_operator (depth : Nat) (t : Token) (rest : List Token) :
    (operator depth).objection t rest = t.blamed (operator depth).complaint.message := by
  cases rest <;> rfl

theorem objection_of_clean (f : Frontier) (t : Token) {rest : List Token}
    (h : ∀ next ∈ rest.head?, next.kind ≠ .fault) :
    f.objection t rest = t.blamed f.complaint.message := by
  cases rest with
  | nil => rfl
  | cons next rest =>
      cases f with
      | operand depth => exact if_neg (h next rfl)
      | operator depth => rfl
      | closed => rfl

end Expr.Frontier

namespace Compile.State

open Expr.Frontier

/-! ## States that are ready to go on -/

/-- The current token is never a fault, since faults are skipped. -/
theorem kind_current_fetch (ts : List Token) (s : State) :
    (s.fetch ts).current.kind ≠ .fault := by
  induction ts generalizing s with
  | nil => exact Kind.noConfusion
  | cons t rest ih =>
      rw [fetch]
      split
      · exact ih _
      · next hkind => exact hkind

theorem current_writeNumber (s : State) : s.writeNumber.current = s.current := by
  rw [writeNumber]
  split
  · simp only [writeConstant]
    split
    · exact current_report ..
    · rfl
  · exact current_report ..

theorem kept_current : Kept (fun s => s.current.kind ≠ .fault) where
  advance := fun {s} _ => kind_current_fetch _ s
  blame := fun _ _ h => by rw [current_report]; exact h
  blamePassed := fun {s} _ => by rw [current_report]; exact kind_current_fetch _ s
  writeOp := fun _ _ _ h => h
  writeNumber := fun {s} _ _ => by rw [current_writeNumber]; exact kind_current_fetch _ s

/-- The number of tokens that are not faults. -/
def readable (ts : List Token) : Nat := ts.countP (·.kind ≠ .fault)

/-- The number of tokens that are numbers. -/
def numbers (ts : List Token) : Nat := ts.countP (·.kind = .number)

/-- `s.Ready last ts budget`: nothing was wrong so far, the tokens `ts` are still to be read, and
neither they nor the end token can exhaust the budget or the pool. -/
structure Ready (s : State) (last : Token) (ts : List Token) (budget : Nat) : Prop where
  clear : s.diagnostic = none
  awaits : s.Awaits last ts
  current : s.current.kind ≠ .fault
  numerals : ∀ t ∈ ts, t.kind = .number → Decimal.isNumeral t.lexeme = true
  room : s.chunk.constants.size + numbers ts ≤ maxConstants
  budget : readable ts < budget

section
variable {s : State} {last t : Token} {ts : List Token} {budget : Nat}

/-- A fault comes right after the current token, if one is met on moving on. -/
theorem advance_of_fault {d : Diagnostic} (hclear : s.diagnostic = none)
    (h : s.advance.diagnostic = some d) :
    ∃ next rest, s.stream.tokens = next :: rest ∧ next.kind = .fault ∧ d = next.misspelled := by
  rw [advance] at h
  cases hts : s.stream.tokens with
  | nil =>
      rw [hts] at h
      exact absurd (h.symm.trans hclear) (Option.some_ne_none d)
  | cons next rest =>
      rw [hts, fetch] at h
      split at h
      · next hfault =>
        have hreport : ((s.note (.scanned next)).report next next.lexeme).diagnostic =
            some next.misspelled := by
          rw [diagnostic_report]
          exact congrArg (fun d => some (Option.getD d _)) hclear
        rw [diagnostic_fetch rest hreport] at h
        exact ⟨next, rest, rfl, hfault, (Option.some.inj h).symm⟩
      · exact absurd (h.symm.trans hclear) (Option.some_ne_none d)

/-- At the end of the source there is nothing to meet. -/
theorem Ready.advance_nil (h : s.Ready last [] budget) : s.advance.diagnostic = none := by
  refine diagnostic_advance_eq_none_iff.mpr ⟨h.clear, fun t ht => ?_⟩
  rw [show s.stream.tokens = [] from h.awaits.tokens] at ht
  cases ht

theorem Ready.mono (h : s.Ready last ts budget) : s.Ready last ts (budget + 1) :=
  { h with budget := Nat.lt_succ_of_lt h.budget }

theorem readable_cons (ht : t.kind ≠ .fault) : readable (t :: ts) = readable ts + 1 :=
  List.countP_cons_of_pos (p := fun t : Token => decide (t.kind ≠ .fault)) (decide_eq_true ht)

theorem numbers_cons_le : numbers ts ≤ numbers (t :: ts) :=
  (List.sublist_cons_self t ts).countP_le

/-- Moving on by one token. -/
theorem Ready.advance (h : s.Ready last (t :: ts) (budget + 1))
    (hclear : s.advance.diagnostic = none) :
    s.advance.previous = t ∧ s.advance.Ready last ts budget := by
  obtain ⟨hpasses, hawaits⟩ := h.awaits.advance hclear
  have hcurrent : s.current = t := h.awaits.current
  have hbudget := h.budget
  rw [readable_cons (hcurrent ▸ h.current)] at hbudget
  refine ⟨hpasses.previous.trans hcurrent, hclear, hawaits, kind_current_fetch _ s, ?_, ?_, ?_⟩
  · exact fun u hu => h.numerals u (List.mem_cons_of_mem _ hu)
  · rw [hpasses.chunk]
    exact Nat.le_trans (Nat.add_le_add_left numbers_cons_le _) h.room
  · exact Nat.lt_of_succ_lt_succ hbudget

/-- There is room for a number that is ahead. -/
theorem Ready.writeNumber (h : s.Ready last (t :: ts) (budget + 1)) (ht : t.kind = .number)
    (hclear : s.advance.diagnostic = none) : s.advance.writeNumber.Ready last ts budget := by
  obtain ⟨hprevious, hready⟩ := h.advance hclear
  have hroom : s.advance.chunk.constants.size + (numbers ts + 1) ≤ maxConstants := by
    have hcount : numbers (t :: ts) = numbers ts + 1 :=
      List.countP_cons_of_pos (p := fun t : Token => decide (t.kind = .number)) (decide_eq_true ht)
    rw [chunk_advance, ← hcount]
    exact h.room
  have hwritten : s.advance.writeNumber.diagnostic = none := by
    refine diagnostic_writeNumber_eq_none hclear ?_ (by omega)
    rw [hprevious]
    exact h.numerals t List.mem_cons_self ht
  obtain ⟨hgains, _, hcurrent, hstream⟩ := writeNumber_of_clear hwritten
  refine ⟨hwritten, hready.awaits.congr hcurrent hstream, ?_, hready.numerals, ?_, hready.budget⟩
  · rw [hcurrent]
    exact hready.current
  · rw [hgains.size]
    show _ + 1 + _ ≤ _
    omega

/-- What was parsed without a complaint is a phrase, and the state is ready for what follows. -/
theorem Ready.parse (h : s.Ready last ts budget) {n : Nat} {p : Precedence}
    (hclear : (s.parse n p).diagnostic = none) :
    ∃ q us rest e, ts = us ++ rest ∧ Spells q us e ∧ Stops p rest ∧
      (s.parse n p).Ready last rest budget := by
  obtain ⟨us, rest, e, rfl, hspells, _, hstops, hyields⟩ :=
    parse_sound last n p s ts h.awaits hclear
  have hroom := h.room
  have hbudget := h.budget
  have hliterals : numbers us = e.literals.length := by
    rw [numbers, List.countP_eq_length_filter, hspells.literals_eq]
  rw [numbers, List.countP_append] at hroom
  rw [readable, List.countP_append] at hbudget
  refine ⟨_, us, rest, e, rfl, hspells, hstops, hclear, hyields.awaits, ?_, ?_, ?_, ?_⟩
  · exact kept_current.parse n p h.current
  · exact fun u hu => h.numerals u (List.mem_append_right _ hu)
  · rw [hyields.gains.size, ← hliterals, Nat.add_assoc]
    exact hroom
  · exact Nat.lt_of_le_of_lt (Nat.le_add_left ..) hbudget

theorem Ready.writeOp (h : s.Ready last ts budget) (op : Opcode) (line : Nat) :
    (s.writeOp op line).Ready last ts budget where
  clear := h.clear
  awaits := h.awaits.congr rfl rfl
  current := h.current
  numerals := h.numerals
  room := h.room
  budget := h.budget

end

/-! ## Parsing finds what the pass finds -/

section
variable {s : State} {last : Token} {ts : List Token} {budget : Nat} {p : Precedence}
  {d : Diagnostic}

/-- A complaint that was made before the operators is the one that is kept. -/
theorem eq_of_operators {s : State} {d' : Diagnostic}
    (hd : (s.parseOperators budget p).diagnostic = some d) (hd' : s.diagnostic = some d') :
    d' = d := by
  have hkept := kept_diagnostic d'
  exact Option.some.inj ((hkept.operators (hkept.parse budget) p s hd').symm.trans hd)

/-- What is true of parsing an operand when it ends with a diagnostic. -/
def Diagnoses (last : Token) (budget : Nat) : Prop :=
  ∀ (p : Precedence) (s : State) (ts : List Token) (d : Diagnostic), s.Ready last ts budget →
    (s.parse budget p).diagnostic = some d →
    ∀ depth, (operand depth).diagnose (ts ++ [last]) = some d

/-- A fault that is met on moving on is the next token. -/
theorem Ready.diagnose_advance {t : Token} (h : s.Ready last (t :: ts) budget)
    (hd : s.advance.diagnostic = some d) (f : Frontier) :
    f.diagnose (ts ++ [last]) = some d := by
  obtain ⟨next, rest, htokens, hfault, rfl⟩ := advance_of_fault h.clear hd
  have hts : ts = next :: rest := h.awaits.tokens.symm.trans htokens
  rw [hts]
  exact diagnose_fault f _ hfault

/-- An operand that begins after the current token. -/
theorem Diagnoses.next (hoperand : Diagnoses last budget) {t : Token}
    (h : s.Ready last (t :: ts) (budget + 1))
    (hd : (s.advance.parse budget p).diagnostic = some d) (depth : Nat) :
    (operand depth).diagnose (ts ++ [last]) = some d := by
  cases hadvance : s.advance.diagnostic with
  | some d' =>
      rw [(kept_diagnostic d').parse budget p hadvance] at hd
      cases hd
      exact h.diagnose_advance hadvance _
  | none => exact hoperand p _ ts d (h.advance hadvance).2 hd depth

/-- The operators after an operand. -/
theorem operators_diagnoses (hoperand : Diagnoses last budget) (depth : Nat) (p : Precedence) :
    ∀ (s : State) (ts : List Token) (d : Diagnostic), s.Ready last ts budget →
      (s.parseOperators budget p).diagnostic = some d →
      (operator depth).diagnose (ts ++ [last]) = some d := by
  refine operators_induct budget p ?_ ?_
  · intro s heq _ ts d hready hd
    rw [heq, hready.clear] at hd
    cases hd
  · intro s op hkind _ heq ih ts d hready hd
    obtain ⟨rest, rfl⟩ := hready.awaits.exists_cons (by rw [hkind]; exact op.kind_ne_eof)
    rw [List.cons_append, diagnose_step _ hready.current (step_operator depth hkind)]
    rw [heq] at hd
    cases hparsed : (s.advance.parse budget op.precedence.next).diagnostic with
    | some d' =>
        rw [← eq_of_operators hd hparsed]
        exact hoperand.next hready.mono hparsed depth
    | none =>
        obtain ⟨_, hnext⟩ := hready.mono.advance (clear_of_parse hparsed)
        obtain ⟨q, us, rest, e, rfl, hspells, _, hafter⟩ := hnext.parse hparsed
        rw [List.append_assoc, diagnose_phrase hspells]
        exact ih rest d (hafter.writeOp _ _) hd

/-- The current token stands before what is ahead of it. -/
theorem Awaits.exists_head (h : s.Awaits last ts) : ∃ rest, ts ++ [last] = s.current :: rest := by
  cases ts with
  | nil => exact ⟨[], by rw [h.current]; rfl⟩
  | cons t rest => exact ⟨rest ++ [last], by rw [h.current]; rfl⟩

/-- Where a whole expression ends, the current token is no operator. -/
theorem Awaits.not_operator (h : s.Awaits last ts) (hstops : Stops .assignment ts)
    (op : Operator) : s.current.kind ≠ op.kind := by
  intro hkind
  obtain ⟨rest, rfl⟩ := h.exists_cons (by rw [hkind]; exact op.kind_ne_eof)
  exact absurd (hstops s.current rfl op hkind) (by cases op <;> decide)

/-- An expression that ends at a token which neither closes nor continues it. -/
theorem Ready.diagnose_current (h : s.Ready last ts budget) (hstops : Stops .assignment ts)
    {depth : Nat} (hparen : depth ≠ 0 → s.current.kind ≠ .rightParen)
    (heof : depth = 0 → s.current.kind ≠ .eof) :
    (operator depth).diagnose (ts ++ [last]) =
      some (s.current.blamed (operator depth).complaint.message) := by
  obtain ⟨rest, hrest⟩ := h.awaits.exists_head
  have hstep := step_operator_eq_none (h.awaits.not_operator hstops) hparen heof
  rw [hrest, diagnose_stuck _ h.current hstep, objection_operator]

/-- A closing parenthesis and what follows it, or a complaint that it is missing. -/
theorem Ready.diagnose_closing (h : s.Ready last ts budget) (hoperand : Diagnoses last budget)
    (hstops : Stops .assignment ts)
    (hd : ((s.consume .rightParen .expectRightParen).parseOperators budget p).diagnostic = some d)
    (depth : Nat) : (operator (depth + 1)).diagnose (ts ++ [last]) = some d := by
  by_cases hclosing : s.current.kind = .rightParen
  · obtain ⟨rest, rfl⟩ := h.awaits.exists_cons (by rw [hclosing]; decide)
    have hstep : (operator (depth + 1)).step s.current.kind = some (operator depth) := by
      rw [hclosing]
      rfl
    rw [List.cons_append, diagnose_step _ h.current hstep]
    rw [consume, if_pos hclosing] at hd
    cases hadvance : s.advance.diagnostic with
    | some d' =>
        rw [← eq_of_operators hd hadvance]
        exact h.diagnose_advance hadvance _
    | none => exact operators_diagnoses hoperand depth p _ rest d (h.mono.advance hadvance).2 hd
  · rw [h.diagnose_current hstops (fun _ => hclosing) (fun hzero => absurd hzero (by simp))]
    rw [consume, if_neg hclosing] at hd
    have hreport : (s.report s.current Complaint.expectRightParen.message).diagnostic =
        some (s.current.blamed Complaint.expectRightParen.message) := by
      rw [diagnostic_report, h.clear]
      rfl
    rw [← eq_of_operators hd hreport]
    rfl

/-- A complaint made on moving on to an operand stays. -/
theorem diagnostic_parse_of_advance {s : State} (h : s.advance.diagnostic = some d) :
    (s.parse (budget + 1) p).diagnostic = some d := by
  have hkept := kept_diagnostic d
  have hoperators := hkept.operators (hkept.parse budget) p
  rw [parse_succ]
  split
  · exact hoperators _ (diagnostic_writeNumber h)
  · exact hoperators _ (hkept.consume (hkept.parse budget _ h) _ (by decide))
  · exact hoperators _ (hkept.parse budget _ h)
  · rw [diagnostic_report, h]
    rfl

/-- Nothing but the end token is ahead: an operand is missing there. -/
theorem Ready.diagnose_nil (h : s.Ready last [] (budget + 1))
    (hd : (s.parse (budget + 1) p).diagnostic = some d) (depth : Nat) :
    (operand depth).diagnose [last] = some d := by
  have hcurrent : s.current = last := h.awaits.current
  rw [parse_succ, previous_advance, hcurrent, h.awaits.kind_last] at hd
  simp only [diagnostic_report, h.advance_nil] at hd
  cases hd
  refine diagnose_stuck [] (hcurrent ▸ h.current) ?_
  rw [h.awaits.kind_last]
  rfl

/-- A fault is met right after the token where the operand begins. -/
theorem Ready.diagnose_fault_ahead {t : Token} (h : s.Ready last (t :: ts) (budget + 1))
    (hadvance : s.advance.diagnostic = some d) (depth : Nat) :
    (operand depth).diagnose (t :: (ts ++ [last])) = some d := by
  have hcurrent : s.current = t := h.awaits.current
  obtain ⟨next, more, htokens, hfault, rfl⟩ := advance_of_fault h.clear hadvance
  have hts : ts = next :: more := h.awaits.tokens.symm.trans htokens
  rw [hts]
  exact diagnose_operand_fault depth _ (hcurrent ▸ h.current) hfault

/-- An operand in parentheses, after the opening one. -/
theorem Ready.diagnose_group (h : s.Ready last ts budget) (hoperand : Diagnoses last budget)
    (hd : (((s.parse budget .assignment).consume .rightParen .expectRightParen).parseOperators
      budget p).diagnostic = some d) (depth : Nat) :
    (operand (depth + 1)).diagnose (ts ++ [last]) = some d := by
  cases hinner : (s.parse budget .assignment).diagnostic with
  | some d' =>
      have hconsumed := (kept_diagnostic d').consume hinner .rightParen
        (c := .expectRightParen) (by decide)
      rw [← eq_of_operators hd hconsumed]
      exact hoperand _ _ ts d' h hinner (depth + 1)
  | none =>
      obtain ⟨q, us, rest, e, rfl, hspells, hstops, hafter⟩ := h.parse hinner
      rw [List.append_assoc, diagnose_phrase hspells]
      exact hafter.diagnose_closing hoperand hstops hd depth

/-- An operand after a minus sign. -/
theorem Ready.diagnose_negate (h : s.Ready last ts budget) (hoperand : Diagnoses last budget)
    {line : Nat} (hd : (((s.parse budget .unary).writeOp .negate line).parseOperators
      budget p).diagnostic = some d) (depth : Nat) :
    (operand depth).diagnose (ts ++ [last]) = some d := by
  cases hinner : (s.parse budget .unary).diagnostic with
  | some d' =>
      rw [← eq_of_operators hd hinner]
      exact hoperand _ _ ts d' h hinner depth
  | none =>
      obtain ⟨q, us, rest, e, rfl, hspells, _, hafter⟩ := h.parse hinner
      rw [List.append_assoc, diagnose_phrase hspells]
      exact operators_diagnoses hoperand depth p _ rest d (hafter.writeOp _ _) hd

/-- What is ahead begins with no fault. -/
theorem Ready.head_clean (h : s.Ready last ts budget) :
    ∀ next ∈ (ts ++ [last]).head?, next.kind ≠ .fault := by
  obtain ⟨rest, hrest⟩ := h.awaits.exists_head
  rw [hrest]
  rintro _ ⟨⟩
  exact h.current

theorem parse_diagnoses (last : Token) (budget : Nat) : Diagnoses last budget := by
  induction budget with
  | zero =>
      intro p s ts d hready _ _
      exact absurd hready.budget (Nat.not_lt_zero _)
  | succ budget ih =>
      intro p s ts d hready hd depth
      cases ts with
      | nil => exact hready.diagnose_nil hd depth
      | cons t rest =>
          rw [List.cons_append]
          have hcurrent : s.current = t := hready.awaits.current
          have ht : t.kind ≠ .fault := hcurrent ▸ hready.current
          cases hadvance : s.advance.diagnostic with
          | some d' =>
              rw [diagnostic_parse_of_advance hadvance] at hd
              cases hd
              exact hready.diagnose_fault_ahead hadvance depth
          | none =>
              obtain ⟨hprevious, hnext⟩ := hready.advance hadvance
              rw [parse_succ, hprevious] at hd
              split at hd
              · next hkind =>
                rw [diagnose_step (g := operator depth) _ ht (by rw [hkind]; rfl)]
                have hwritten := hready.writeNumber hkind hadvance
                exact operators_diagnoses ih depth p _ rest d hwritten hd
              · next hkind =>
                rw [diagnose_step (g := operand (depth + 1)) _ ht (by rw [hkind]; rfl)]
                exact hnext.diagnose_group ih hd depth
              · next hkind =>
                rw [diagnose_step (g := operand depth) _ ht (by rw [hkind]; rfl)]
                exact hnext.diagnose_negate ih hd depth
              · next hnumber hparen hminus =>
                rw [diagnose_stuck _ ht (step_operand_eq_none hnumber hparen hminus),
                  objection_of_clean _ _ hnext.head_clean]
                rw [diagnostic_report, hadvance] at hd
                exact hd

end

theorem ready_first {source : String} {maxNesting : Nat}
    (hnest : readable (TokenStream.ofSource source).toList ≤ maxNesting)
    (hnumbers : numbers (TokenStream.ofSource source).tokens ≤ maxConstants)
    (hclear : (start source).advance.diagnostic = none) :
    (start source).advance.Ready (TokenStream.ofSource source).eof
      (TokenStream.ofSource source).tokens maxNesting where
  clear := hclear
  awaits := awaits_first hclear
  current := kind_current_fetch _ _
  numerals := fun _ => TokenStream.isNumeral_of_mem
  room := by
    rw [chunk_advance]
    exact Nat.le_trans (Nat.le_of_eq (Nat.zero_add _)) hnumbers
  budget := by
    rw [TokenStream.toList, readable, List.countP_append] at hnest
    exact hnest

/-- Within the limits, compiling finds wrong what the pass over the tokens does. -/
theorem diagnostic_finish {source : String} {maxNesting : Nat}
    (hnest : readable (TokenStream.ofSource source).toList ≤ maxNesting)
    (hnumbers : numbers (TokenStream.ofSource source).tokens ≤ maxConstants) :
    (finish source maxNesting).diagnostic =
      Frontier.start.diagnose (TokenStream.ofSource source).toList := by
  show (((start source).advance.parse maxNesting .assignment).consume .eof
    .expectEnd).diagnostic = Frontier.start.diagnose (_ ++ [_])
  cases hfirst : (start source).advance.diagnostic with
  | some d =>
      have hkept := kept_diagnostic d
      rw [hkept.consume (hkept.parse maxNesting _ hfirst) _ (by decide)]
      obtain ⟨next, rest, htokens, hfault, rfl⟩ := advance_of_fault rfl hfirst
      have hts : (TokenStream.ofSource source).tokens = next :: rest := htokens
      rw [hts]
      exact (diagnose_fault _ _ hfault).symm
  | none =>
      have hready := ready_first hnest hnumbers hfirst
      cases hparsed : ((start source).advance.parse maxNesting .assignment).diagnostic with
      | some d =>
          rw [(kept_diagnostic d).consume hparsed _ (by decide)]
          exact (parse_diagnoses _ _ _ _ _ d hready hparsed 0).symm
      | none =>
          obtain ⟨q, us, rest, e, hts, hspells, hstops, hafter⟩ := hready.parse hparsed
          rw [hts, List.append_assoc, Frontier.start, diagnose_phrase hspells, consume]
          split
          · next hend =>
            have hrest := hafter.awaits.eq_nil hend
            subst hrest
            rw [hafter.advance_nil]
            rfl
          · next hend =>
            rw [hafter.diagnose_current hstops (fun h => absurd rfl h) (fun _ => hend),
              diagnostic_report, hparsed]
            rfl

end Compile.State

end Reckon
