/-
# Precedence climbing follows the grammar

The grammar has three kinds of phrases, the parser a scale of precedences.  To ask for
operators of precedence at least `p` is to ask for a phrase of the kind
`Phrase.ofPrecedence p`.

* Soundness (`parse_sound`): a parse that ends without a diagnostic has read such a
  phrase, as long as it could get, with operands nested within the budget, and has
  written the code of its tree.
* Completeness (`parse_complete`): where such a phrase is ahead, the parser reads it.

The two inductions run differently.  Soundness follows the parser: on the budget, and
for the operators after an operand on the tokens ahead.  Completeness follows the
derivation.  Its rules are left-recursive while the parser goes from left to right, so
what is proved for a phrase is not that parsing ends after it, but that parsing comes to
the operators after it; that is what the next operator of the same level needs.
-/
import Reckon.Proofs.Compile.Session

namespace Reckon

open Reckon.Expr (Phrase Spells Stops)

namespace Expr

/-- The phrases that are asked for at a precedence. -/
def Phrase.ofPrecedence (p : Precedence) : Phrase :=
  if p.rank ≤ Precedence.term.rank then .sum
  else if p.rank ≤ Precedence.factor.rank then .product
  else .unary

theorem Phrase.ofPrecedence_next (op : Operator) :
    ofPrecedence op.precedence.next = op.phrase.operand := by
  cases op <;> rfl

/-- An operator that is read at a precedence builds what is asked for there. -/
theorem Phrase.rank_ofPrecedence_le {p : Precedence} {op : Operator}
    (h : p.rank ≤ op.precedence.rank) :
    (ofPrecedence p).precedence.rank ≤ op.phrase.precedence.rank := by
  rw [precedence_phrase]
  unfold ofPrecedence
  split
  · cases op <;> decide
  · next hterm =>
    rw [if_pos]
    · cases op with
      | add => exact absurd h hterm
      | subtract => exact absurd h hterm
      | multiply => decide
      | divide => decide
    · exact Nat.le_trans h (by cases op <;> decide)

theorem rank_next (op : Operator) : op.precedence.next.rank = op.precedence.rank + 1 := by
  cases op <;> rfl

theorem nesting_pos (e : Expr) : 0 < e.nesting :=
  Nat.lt_of_lt_of_le e.slots_pos e.slots_le_nesting

theorem Spells.ofUnary' {q : Phrase} {ts : List Token} {e : Expr} (h : Spells .unary ts e) :
    Spells q ts e :=
  h.loosen (by cases q <;> decide)

end Expr

namespace Compile.State

/-- `s.Yields e last rest s'`: between `s` and `s'` the code of `e` was written, and the tokens
`rest` are still to be read. -/
structure Yields (s : State) (e : Expr) (last : Token) (rest : List Token) (s' : State) :
    Prop where
  awaits : s'.Awaits last rest
  gains : s.chunk.Gains e s'.chunk

/-- `s.Finds last ts n p s'`: between `s` and `s'` a phrase at the head of `ts` was read that is
asked for at `p`, as long as it could get and nested at most `n` deep. -/
def Finds (s : State) (last : Token) (ts : List Token) (n : Nat) (p : Precedence) (s' : State) :
    Prop :=
  ∃ us rest e, ts = us ++ rest ∧ Spells (Phrase.ofPrecedence p) us e ∧ e.nesting ≤ n ∧
    Stops p rest ∧ s.Yields e last rest s'

/-- What is true of parsing with a given budget when it ends without a diagnostic. -/
def Sound (last : Token) (budget : Nat) : Prop :=
  ∀ (p : Precedence) (s : State) (ts : List Token), s.Awaits last ts →
    (s.parse budget p).diagnostic = none → s.Finds last ts budget p (s.parse budget p)

theorem consume_of_clear {s : State} {kind : Kind} {c : Complaint}
    (h : (s.consume kind c).diagnostic = none) :
    s.current.kind = kind ∧ s.consume kind c = s.advance := by
  unfold consume at h ⊢
  split
  · next hkind => exact ⟨hkind, rfl⟩
  · next hkind =>
    rw [if_neg hkind] at h
    exact absurd h (diagnostic_report_ne_none _ _ _)

/-- A token that was passed and is not the end was the first of the awaited ones. -/
theorem Awaits.begun {s : State} {last : Token} {ts : List Token} (h : s.Awaits last ts)
    (hclear : s.advance.diagnostic = none) (hkind : s.advance.previous.kind ≠ .eof) :
    ∃ rest, ts = s.advance.previous :: rest ∧ s.advance.chunk = s.chunk ∧
      s.advance.Awaits last rest := by
  cases ts with
  | nil =>
      have hnil : s.stream.tokens = [] := h.tokens
      have hinner : ∀ t ∈ s.stream.tokens, t.kind ≠ .eof := by
        rw [hnil]
        exact fun t ht => absurd ht List.not_mem_nil
      rw [(advance_of_clear hclear hinner).1.previous, h.current] at hkind
      exact absurd h.kind_last hkind
  | cons t rest =>
      obtain ⟨hpasses, hawaits⟩ := h.advance hclear
      exact ⟨rest, by rw [hpasses.previous, h.current]; rfl, hpasses.chunk, hawaits⟩

/-! ## Soundness -/

/-- The operators after an operand.  What was read before, `us`, is a phrase of the level
that is asked for, and of the level of the next operator if that one will be read: an
operator binds no tighter than the one before it, or the right operand of that one would
have taken it. -/
theorem operators_sound {s₀ : State} {last : Token} {ts : List Token} {budget : Nat}
    (hsound : Sound last budget) (p : Precedence) :
    ∀ (s : State) (us rest : List Token) (a : Expr), ts = us ++ rest →
      s₀.Yields a last rest s → a.nesting ≤ budget + 1 → Spells (Phrase.ofPrecedence p) us a →
      (∀ op : Operator, s.current.kind = op.kind → p.rank ≤ op.precedence.rank →
        Spells op.phrase us a) →
      (s.parseOperators budget p).diagnostic = none →
      s₀.Finds last ts (budget + 1) p (s.parseOperators budget p) := by
  refine operators_induct budget p ?_ ?_
  · intro s heq hstop us rest a hts hyields hnest hspells _ _
    rw [heq]
    exact ⟨us, rest, a, hts, hspells, hnest, hyields.awaits.stops hstop, hyields⟩
  · intro s op hkind hp heq ih us rest a hts hyields hnest _ hspells hclear
    rw [heq] at hclear ⊢
    have hparsed := clear_of_operators hclear
    rw [diagnostic_writeOp] at hparsed
    have hne : s.current.kind ≠ .eof := by
      rw [hkind]
      exact op.kind_ne_eof
    obtain ⟨rest', rfl⟩ := hyields.awaits.exists_cons hne
    obtain ⟨hpasses, hawaits⟩ := hyields.awaits.advance (clear_of_parse hparsed)
    obtain ⟨vs, rest, b, rfl, hb, hnestb, hstop, hyieldsb⟩ := hsound _ _ _ hawaits hparsed
    rw [Phrase.ofPrecedence_next] at hb
    have hbinary := (hspells op hkind hp).binary hkind hb
    refine ih (us ++ s.current :: vs) rest (.binary op s.current.line a b) ?_ ?_ ?_ ?_ ?_ hclear
    · rw [hts, List.append_assoc, List.cons_append]
    · exact ⟨hyieldsb.awaits.congr rfl rfl,
        hyields.gains.binary (hpasses.chunk ▸ hyieldsb.gains) op s.current.line⟩
    · simp only [Expr.nesting]
      omega
    · exact hbinary.loosen (Phrase.rank_ofPrecedence_le hp)
    · intro op' hkind' hp'
      refine hbinary.loosen ?_
      have hlt : op'.precedence.rank < op.precedence.next.rank := by
        cases rest with
        | nil =>
            rw [current_writeOp, hyieldsb.awaits.current] at hkind'
            rw [List.headD_nil, hawaits.kind_last] at hkind'
            exact absurd hkind'.symm op'.kind_ne_eof
        | cons t rest =>
            rw [current_writeOp, hyieldsb.awaits.current] at hkind'
            exact hstop t rfl op' hkind'
      rw [Expr.rank_next] at hlt
      rw [Expr.precedence_phrase, Expr.precedence_phrase]
      omega

/-- `s.Begins last ts n s'`: between `s` and `s'` an operand at the head of `ts` was read, nested
at most `n` deep; it is a phrase on every level. -/
def Begins (s : State) (last : Token) (ts : List Token) (n : Nat) (s' : State) : Prop :=
  ∃ us rest e, ts = us ++ rest ∧ Spells .unary us e ∧ e.nesting ≤ n ∧ s.Yields e last rest s'

theorem begins_number {s : State} {last : Token} {ts : List Token} (budget : Nat)
    (hawaits : s.Awaits last ts) (hkind : s.advance.previous.kind = .number)
    (hclear : s.advance.writeNumber.diagnostic = none) :
    s.Begins last ts (budget + 1) s.advance.writeNumber := by
  obtain ⟨rest, hts, hchunk, hbegun⟩ :=
    hawaits.begun (clear_of_writeNumber hclear) (by rw [hkind]; decide)
  obtain ⟨hgains, _, hcurrent, hstream⟩ := writeNumber_of_clear hclear
  refine ⟨[s.advance.previous], rest, .number s.advance.previous, hts, .number hkind, ?_, ?_⟩
  · exact Nat.le_add_left 1 budget
  · exact ⟨hbegun.congr hcurrent hstream, hchunk ▸ hgains⟩

theorem begins_group {s : State} {last : Token} {ts : List Token} {budget : Nat}
    (hsound : Sound last budget) (hawaits : s.Awaits last ts)
    (hkind : s.advance.previous.kind = .leftParen)
    (hclear : ((s.advance.parse budget .assignment).consume .rightParen
      .expectRightParen).diagnostic = none) :
    s.Begins last ts (budget + 1)
      ((s.advance.parse budget .assignment).consume .rightParen .expectRightParen) := by
  have hinner := clear_of_consume (by decide) hclear
  obtain ⟨rest, hts, hchunk, hbegun⟩ :=
    hawaits.begun (clear_of_parse hinner) (by rw [hkind]; decide)
  obtain ⟨us, rest, e, rfl, hspells, hnest, _, hyields⟩ := hsound _ _ _ hbegun hinner
  obtain ⟨hclosing, hadvance⟩ := consume_of_clear hclear
  rw [hadvance] at hclear ⊢
  obtain ⟨rest, rfl⟩ := hyields.awaits.exists_cons (by rw [hclosing]; decide)
  obtain ⟨hpasses, hafter⟩ := hyields.awaits.advance hclear
  refine ⟨_, rest, .group e, ?_, .group hkind hspells hclosing, ?_, hafter, ?_⟩
  · rw [hts, List.append_assoc, List.cons_append, List.singleton_append]
  · simp only [Expr.nesting]
    omega
  · rw [hpasses.chunk, ← hchunk]
    exact ⟨hyields.gains.code, hyields.gains.constants⟩

theorem begins_negate {s : State} {last : Token} {ts : List Token} {budget : Nat}
    (hsound : Sound last budget) (hawaits : s.Awaits last ts)
    (hkind : s.advance.previous.kind = .minus)
    (hclear : (s.advance.parse budget .unary).diagnostic = none) :
    s.Begins last ts (budget + 1)
      ((s.advance.parse budget .unary).writeOp .negate s.advance.previous.line) := by
  obtain ⟨rest, hts, hchunk, hbegun⟩ :=
    hawaits.begun (clear_of_parse hclear) (by rw [hkind]; decide)
  obtain ⟨us, rest, e, rfl, hspells, hnest, _, hyields⟩ := hsound _ _ _ hbegun hclear
  refine ⟨_, rest, .negate s.advance.previous.line e, hts, .negate hkind hspells, ?_, ?_, ?_⟩
  · simp only [Expr.nesting]
    omega
  · exact hyields.awaits.congr rfl rfl
  · exact (hchunk ▸ hyields.gains).negate _

theorem Begins.operators {s s' : State} {last : Token} {ts : List Token} {budget : Nat}
    {p : Precedence} (h : s.Begins last ts (budget + 1) s') (hsound : Sound last budget)
    (hclear : (s'.parseOperators budget p).diagnostic = none) :
    s.Finds last ts (budget + 1) p (s'.parseOperators budget p) := by
  obtain ⟨us, rest, e, hts, hspells, hnest, hyields⟩ := h
  exact operators_sound hsound p s' us rest e hts hyields hnest hspells.ofUnary'
    (fun _ _ _ => hspells.ofUnary') hclear

theorem parse_sound (last : Token) (budget : Nat) : Sound last budget := by
  induction budget with
  | zero =>
      intro p s ts _ hclear
      rw [parse_zero] at hclear
      exact absurd hclear (diagnostic_report_ne_none _ _ _)
  | succ budget ih =>
      intro p s ts hawaits hclear
      rw [parse_succ] at hclear ⊢
      split
      · next hkind =>
        simp only [hkind] at hclear
        exact (begins_number budget hawaits hkind (clear_of_operators hclear)).operators ih hclear
      · next hkind =>
        simp only [hkind] at hclear
        exact (begins_group ih hawaits hkind (clear_of_operators hclear)).operators ih hclear
      · next hkind =>
        simp only [hkind] at hclear
        have hinner := clear_of_operators hclear
        rw [diagnostic_writeOp] at hinner
        exact (begins_negate ih hawaits hkind hinner).operators ih hclear
      · next hnumber hparen hminus =>
        split at hclear
        · next hkind => exact absurd hkind hnumber
        · next hkind => exact absurd hkind hparen
        · next hkind => exact absurd hkind hminus
        · exact absurd hclear (diagnostic_report_ne_none _ _ _)

/-! ## Completeness -/

theorem parseOperators_of_stops {s : State} {last : Token} {ts : List Token} {p : Precedence}
    (budget : Nat) (hawaits : s.Awaits last ts) (hstop : Stops p ts) :
    s.parseOperators budget p = s := by
  rw [parseOperators_eq]
  cases hop : Operator.ofKind? s.current.kind with
  | none => rfl
  | some op =>
      have hkind := Operator.ofKind?_eq_some_iff.mp hop
      have hlt : op.precedence.rank < p.rank := by
        obtain ⟨rest, hts⟩ := hawaits.exists_cons (by rw [hkind]; exact op.kind_ne_eof)
        exact hstop s.current (by rw [hts]; rfl) op hkind
      exact if_neg (Nat.not_le_of_lt hlt)

theorem parseOperators_of_operator {s : State} {p : Precedence} {op : Operator} (budget : Nat)
    (hkind : s.current.kind = op.kind) (hp : p.rank ≤ op.precedence.rank) :
    s.parseOperators budget p =
      ((s.advance.parse budget op.precedence.next).writeOp op.opcode
        s.current.line).parseOperators budget p := by
  rw [parseOperators_eq, Operator.ofKind?_eq_some_iff.mpr hkind]
  exact if_pos hp

/-- A token that can be read: no fault and, if it is a number, one that denotes something. -/
structure Readable (t : Token) : Prop where
  kind : t.kind ≠ .fault
  numeral : t.kind = .number → Decimal.isNumeral t.lexeme = true

/-- What is true of a phrase that is ahead: parsing comes to the operators after it, with the
code of its tree written.  The phrase must not be cut short, so after a sum comes nothing that
its last operand would take. -/
def Complete (q : Phrase) (ts : List Token) (e : Expr) : Prop :=
  ∀ (p : Precedence) (budget : Nat) (s : State) (last : Token) (rest : List Token),
    p.rank ≤ q.precedence.rank → s.Awaits last (ts ++ rest) → s.diagnostic = none →
    (∀ t ∈ ts ++ rest, Readable t) → e.nesting ≤ budget + 1 →
    s.chunk.constants.size + e.literals.length ≤ maxConstants →
    (q = .sum → Stops .factor rest) →
    ∃ s', s.parse (budget + 1) p = s'.parseOperators budget p ∧ s'.diagnostic = none ∧
      s.Yields e last rest s'

theorem Awaits.advance_readable {s : State} {last t : Token} {ts : List Token}
    (h : s.Awaits last (t :: ts)) (hs : s.diagnostic = none)
    (hread : ∀ u ∈ t :: ts, Readable u) :
    s.advance.diagnostic = none ∧ s.advance.previous = t ∧ s.advance.chunk = s.chunk ∧
      s.advance.Awaits last ts := by
  have htokens : s.stream.tokens = ts := h.tokens
  have hclear : s.advance.diagnostic = none := by
    refine diagnostic_advance_eq_none_iff.mpr ⟨hs, fun u hu => ?_⟩
    rw [htokens] at hu
    exact (hread u (List.mem_cons_of_mem _ (List.mem_of_mem_head? hu))).kind
  obtain ⟨hpasses, hawaits⟩ := h.advance hclear
  refine ⟨hclear, ?_, hpasses.chunk, hawaits⟩
  rw [hpasses.previous, h.current]
  rfl

/-- A phrase that ends where parsing stops is parsed. -/
theorem Complete.parse {q : Phrase} {ts rest : List Token} {e : Expr} {p : Precedence}
    {budget : Nat} {s : State} {last : Token} (h : Complete q ts e)
    (hp : p.rank ≤ q.precedence.rank) (hawaits : s.Awaits last (ts ++ rest))
    (hs : s.diagnostic = none) (hread : ∀ t ∈ ts ++ rest, Readable t)
    (hnest : e.nesting ≤ budget)
    (hroom : s.chunk.constants.size + e.literals.length ≤ maxConstants)
    (hsum : q = .sum → Stops .factor rest) (hstop : Stops p rest) :
    (s.parse budget p).diagnostic = none ∧ s.Yields e last rest (s.parse budget p) := by
  cases budget with
  | zero => exact absurd (Nat.lt_of_lt_of_le e.nesting_pos hnest) (Nat.lt_irrefl 0)
  | succ budget =>
      obtain ⟨s', heq, hclear, hyields⟩ :=
        h p budget s last rest hp hawaits hs hread hnest hroom hsum
      rw [parseOperators_of_stops budget hyields.awaits hstop] at heq
      rw [heq]
      exact ⟨hclear, hyields⟩

theorem complete_number {t : Token} (ht : t.kind = .number) :
    Complete .unary [t] (.number t) := by
  intro p budget s last rest _ hawaits hs hread _ hroom _
  obtain ⟨hclear, hprevious, hchunk, hafter⟩ := hawaits.advance_readable hs hread
  have hnumeral := (hread t List.mem_cons_self).numeral ht
  have hnumber : s.advance.writeNumber.diagnostic = none := by
    refine diagnostic_writeNumber_eq_none hclear ?_ ?_
    · rw [hprevious]
      exact hnumeral
    · rw [hchunk]
      exact hroom
  obtain ⟨hgains, _, hcurrent, hstream⟩ := writeNumber_of_clear hnumber
  refine ⟨s.advance.writeNumber, ?_, hnumber, hafter.congr hcurrent hstream, ?_⟩
  · rw [parse_succ, hprevious, ht]
  · rw [hprevious, hchunk] at hgains
    exact hgains

theorem complete_negate {t : Token} {ts : List Token} {e : Expr} (ht : t.kind = .minus)
    (he : Complete .unary ts e) : Complete .unary (t :: ts) (.negate t.line e) := by
  intro p budget s last rest _ hawaits hs hread hnest hroom _
  obtain ⟨hclear, hprevious, hchunk, hafter⟩ := hawaits.advance_readable hs hread
  simp only [Expr.nesting, Nat.add_comm 1, Nat.add_le_add_iff_right] at hnest
  obtain ⟨hinner, hyields⟩ := he.parse (p := .unary) (Nat.le_refl _) hafter hclear
    (fun u hu => hread u (List.mem_cons_of_mem _ hu)) hnest (by rw [hchunk]; exact hroom)
    (fun hq => by cases hq) (Stops.unary rest)
  refine ⟨(s.advance.parse budget .unary).writeOp .negate t.line, ?_, hinner,
    hyields.awaits.congr rfl rfl, ?_⟩
  · rw [parse_succ, hprevious, ht]
  · rw [chunk_writeOp]
    exact (hchunk ▸ hyields.gains).negate t.line

theorem complete_group {l r : Token} {ts : List Token} {e : Expr} (hl : l.kind = .leftParen)
    (he : Complete .sum ts e) (hr : r.kind = .rightParen) :
    Complete .unary (l :: ts ++ [r]) (.group e) := by
  intro p budget s last rest _ hawaits hs hread hnest hroom _
  rw [List.append_assoc, List.cons_append, List.singleton_append] at hawaits hread
  obtain ⟨hclear, hprevious, hchunk, hafter⟩ := hawaits.advance_readable hs hread
  have hread' : ∀ t ∈ ts ++ r :: rest, Readable t :=
    fun u hu => hread u (List.mem_cons_of_mem _ hu)
  simp only [Expr.nesting, Nat.add_comm 1, Nat.add_le_add_iff_right] at hnest
  have hstop : ∀ p, Stops p (r :: rest) := fun p => .rightParen hr p rest
  obtain ⟨hinner, hyields⟩ := he.parse (p := .assignment) (by decide) hafter hclear hread' hnest
    (by rw [hchunk]; exact hroom) (fun _ => hstop _) (hstop _)
  have hcurrent : (s.advance.parse budget .assignment).current = r := hyields.awaits.current
  obtain ⟨hclosed, _, hchunk', hafter'⟩ := hyields.awaits.advance_readable hinner
    (fun u hu => hread' u (List.mem_append_right _ hu))
  refine ⟨(s.advance.parse budget .assignment).advance, ?_, hclosed, hafter', ?_⟩
  · rw [parse_succ, hprevious, hl]
    simp only
    rw [consume, if_pos (by rw [hcurrent, hr])]
  · rw [hchunk', ← hchunk]
    exact ⟨hyields.gains.code, hyields.gains.constants⟩

/-- Before the right operand of an operator: the left operand is read, and the operator does not
belong to the last operand in it. -/
theorem Complete.operator {op : Operator} {t : Token} {ts us : List Token} {a : Expr}
    {p : Precedence} {budget : Nat} {s : State} {last : Token} (ha : Complete op.phrase ts a)
    (ht : t.kind = op.kind) (hp : p.rank ≤ op.phrase.precedence.rank)
    (hawaits : s.Awaits last (ts ++ t :: us)) (hs : s.diagnostic = none)
    (hread : ∀ u ∈ ts ++ t :: us, Readable u) (hnest : a.nesting ≤ budget + 1)
    (hroom : s.chunk.constants.size + a.literals.length ≤ maxConstants) :
    ∃ s', s.parse (budget + 1) p =
        ((s'.parse budget op.precedence.next).writeOp op.opcode t.line).parseOperators budget p ∧
      s'.diagnostic = none ∧ s.Yields a last us s' := by
  have hcut : op.phrase = .sum → Stops .factor (t :: us) := by
    intro hq
    refine Stops.cons fun op' hop' => ?_
    rw [Operator.kind_injective (hop'.symm.trans ht)]
    cases op with
    | add => decide
    | subtract => decide
    | multiply => cases hq
    | divide => cases hq
  obtain ⟨s₁, heq, hclear₁, hyields₁⟩ := ha p budget s last (t :: us) hp hawaits hs hread hnest
    hroom hcut
  obtain ⟨hclear₂, _, hchunk₂, hafter₂⟩ := hyields₁.awaits.advance_readable hclear₁
    (fun u hu => hread u (List.mem_append_right _ hu))
  have hcurrent : s₁.current = t := hyields₁.awaits.current
  refine ⟨s₁.advance, ?_, hclear₂, hafter₂, hchunk₂ ▸ hyields₁.gains⟩
  rw [heq, parseOperators_of_operator budget (hcurrent ▸ ht), hcurrent]
  rw [← Expr.precedence_phrase]
  exact hp

theorem complete_binary {op : Operator} {t : Token} {ts us : List Token} {a b : Expr}
    (ha : Complete op.phrase ts a) (ht : t.kind = op.kind)
    (hb : Complete op.phrase.operand us b) :
    Complete op.phrase (ts ++ t :: us) (.binary op t.line a b) := by
  intro p budget s last rest hp hawaits hs hread hnest hroom hsum
  rw [List.append_assoc, List.cons_append] at hawaits hread
  simp only [Expr.nesting, Expr.literals, List.length_append, Nat.max_le] at hnest hroom
  obtain ⟨s₁, heq, hclear₁, hyields₁⟩ := ha.operator ht hp hawaits hs hread hnest.1 (by omega)
  -- the right operand, which ends where the phrase does
  have hend : Stops op.precedence.next rest := by
    cases op with
    | add => exact hsum rfl
    | subtract => exact hsum rfl
    | multiply => exact Stops.unary rest
    | divide => exact Stops.unary rest
  obtain ⟨hclear₂, hyields₂⟩ := hb.parse (p := op.precedence.next)
    (Nat.le_of_eq (by rw [Expr.precedence_operand_phrase])) hyields₁.awaits hclear₁
    (fun u hu => hread u (List.mem_append_right _ (List.mem_cons_of_mem _ hu)))
    (by omega : b.nesting ≤ budget) (by rw [hyields₁.gains.size]; omega)
    (by cases op <;> intro hq <;> cases hq) hend
  refine ⟨(s₁.parse budget op.precedence.next).writeOp op.opcode t.line, heq, hclear₂,
    hyields₂.awaits.congr rfl rfl, ?_⟩
  exact hyields₁.gains.binary hyields₂.gains op t.line

theorem parse_complete {q : Phrase} {ts : List Token} {e : Expr} (h : Spells q ts e) :
    Complete q ts e := by
  induction h with
  | number ht => exact complete_number ht
  | negate ht _ ih => exact complete_negate ht ih
  | group hl _ hr ih => exact complete_group hl ih hr
  | ofUnary _ ih =>
      intro p budget s last rest hp hawaits hs hread hnest hroom _
      exact ih p budget s last rest (Nat.le_trans hp (by decide)) hawaits hs hread hnest hroom
        (fun hq => by cases hq)
  | ofProduct _ ih =>
      intro p budget s last rest hp hawaits hs hread hnest hroom _
      exact ih p budget s last rest (Nat.le_trans hp (by decide)) hawaits hs hread hnest hroom
        (fun hq => by cases hq)
  | product hop _ ht _ iha ihb =>
      rcases hop with rfl | rfl
      · exact @complete_binary .multiply _ _ _ _ _ iha ht ihb
      · exact @complete_binary .divide _ _ _ _ _ iha ht ihb
  | sum hop _ ht _ iha ihb =>
      rcases hop with rfl | rfl
      · exact @complete_binary .add _ _ _ _ _ iha ht ihb
      · exact @complete_binary .subtract _ _ _ _ _ iha ht ihb

end Compile.State

end Reckon
