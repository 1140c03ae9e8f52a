/-
# Which limit an expression runs into

A sentence of the grammar fails to compile for two reasons only: an operand is begun
with as many operands open as the limit allows, or there is one number more than a byte
can tell apart.  Both can be the case many times over.  What is reported is the one that
comes first in the source; at one and the same token the nesting is looked at before the
number is written (`compile_beyond_limits`).

`Expr.openings` tells for every token of a tree whether it begins an operand, and how
many operands are open around that one.  With the numbers counted on the way this is all
that the limits are about, so the first thing that is too much is found in one pass over
the tokens (`overrun?`).  The parser finds the same (`overruns_of_spells`), by induction
on the derivation: where a part is within the limits parsing goes on behind it
(`parse_complete`), and once something is reported it stays (`kept_diagnostic`).
-/
import Reckon.Proofs.Compile.Diagnosis

namespace Reckon

open Reckon.Expr (Phrase Spells)

/-! ## Operands and what is open around them -/

namespace Expr

/-- For each token of an expression, whether an operand begins with it: the expression as a
whole, what is negated, what stands in parentheses or what is on the right of an operator.
If so, how many operands are open around it, when there are `n` around the expression. -/
def openings (n : Nat) : Expr → List (Option Nat)
  | number _ => [some n]
  | negate _ e => some n :: e.openings (n + 1)
  | group e => some n :: (e.openings (n + 1) ++ [none])
  | binary _ _ a b => a.openings n ++ none :: b.openings (n + 1)

theorem exists_openings_cons (e : Expr) (n : Nat) : ∃ os, e.openings n = some n :: os := by
  induction e with
  | number _ => exact ⟨_, rfl⟩
  | negate _ _ _ => exact ⟨_, rfl⟩
  | group _ _ => exact ⟨_, rfl⟩
  | binary _ _ a b iha _ =>
      obtain ⟨os, hos⟩ := iha
      exact ⟨os ++ none :: b.openings (n + 1), by rw [openings, hos, List.cons_append]⟩

/-- An operand, and what is begun inside it. -/
theorem mem_cons_openings_iff {os : List (Option Nat)} {n k : Nat}
    (h : ∀ b, some (n + 1 + b) ∈ os ↔ b < k) (b : Nat) :
    some (n + b) ∈ some n :: os ↔ b < 1 + k := by
  cases b with
  | zero => simp [Nat.add_comm 1 k]
  | succ b =>
      have hnext : n + (b + 1) = n + 1 + b := by omega
      have hne : some (n + 1 + b) ≠ some n := by simp; omega
      rw [hnext, List.mem_cons, or_iff_right hne, h]
      omega

/-- Operands are begun with any number of open ones short of the nesting. -/
theorem mem_openings_iff (e : Expr) (n b : Nat) :
    some (n + b) ∈ e.openings n ↔ b < e.nesting := by
  induction e generalizing n b with
  | number _ =>
      simp only [openings, nesting, List.mem_singleton, Option.some.injEq]
      omega
  | negate _ e ih => exact mem_cons_openings_iff (ih (n + 1)) b
  | group e ih =>
      refine mem_cons_openings_iff (fun b => ?_) b
      rw [List.mem_append, ih]
      simp
  | binary _ _ a c iha ihc =>
      have hright := mem_cons_openings_iff (ihc (n + 1)) b
      have hpos := a.nesting_pos
      simp only [openings, nesting, List.mem_cons, List.mem_append, reduceCtorEq, false_or, iha]
      simp only [List.mem_cons, Option.some.injEq] at hright
      by_cases hb : b = 0
      · simp only [hb, hpos, true_or, true_iff]
        omega
      · rw [or_iff_right (by omega)] at hright
        rw [hright]
        omega

theorem Spells.length_openings {q : Phrase} {ts : List Token} {e : Expr} (h : Spells q ts e)
    (n : Nat) : ts.length = (e.openings n).length := by
  induction h generalizing n with
  | number _ => rfl
  | negate _ _ ih => simp [openings, ih (n + 1)]
  | group _ _ _ ih => simp [openings, ih (n + 1)]
  | ofUnary _ ih => exact ih n
  | ofProduct _ ih => exact ih n
  | product _ _ _ _ iha ihb => simp [openings, iha n, ihb (n + 1)]
  | sum _ _ _ _ iha ihb => simp [openings, iha n, ihb (n + 1)]

end Expr

/-! ## The first thing that is too much -/

open Compile (maxConstants)

/-- The number tokens among some marked tokens. -/
def numbersOf (xs : List (Token × Option Nat)) : Nat :=
  xs.countP fun x => x.1.kind = .number

/-- What is reported about tokens that are marked with the operands open around them, when
`used` constants were written before. -/
def overrun? (max used : Nat) : List (Token × Option Nat) → Option Diagnostic
  | [] => none
  | (t, opening) :: rest =>
    if opening = some max then some (t.blamed Complaint.nestedTooDeeply.message)
    else if t.kind = .number then
      if used = maxConstants then some (t.blamed Complaint.tooManyConstants.message)
      else overrun? max (used + 1) rest
    else overrun? max used rest

section Overrun

variable {max used : Nat} {t : Token} {opening : Option Nat}

theorem overrun?_nested (rest : List (Token × Option Nat)) :
    overrun? max used ((t, some max) :: rest) =
      some (t.blamed Complaint.nestedTooDeeply.message) :=
  if_pos rfl

theorem overrun?_full (rest : List (Token × Option Nat)) (hopen : opening ≠ some max)
    (ht : t.kind = .number) :
    overrun? max maxConstants ((t, opening) :: rest) =
      some (t.blamed Complaint.tooManyConstants.message) := by
  rw [overrun?, if_neg hopen, if_pos ht, if_pos rfl]

/-- A token that is not too much is passed. -/
theorem overrun?_pass (rest : List (Token × Option Nat)) (hopen : opening ≠ some max)
    (hroom : t.kind = .number → used ≠ maxConstants) :
    overrun? max used ((t, opening) :: rest) =
      overrun? max (used + numbersOf [(t, opening)]) rest := by
  rw [overrun?, if_neg hopen]
  by_cases ht : t.kind = .number
  · have hone : numbersOf [(t, opening)] = 1 := List.countP_cons_of_pos (decide_eq_true ht)
    rw [if_pos ht, if_neg (hroom ht), hone]
  · have hzero : numbersOf [(t, opening)] = 0 := List.countP_cons_of_neg (by simpa using ht)
    rw [if_neg ht, hzero, Nat.add_zero]

theorem numbersOf_cons (x : Token × Option Nat) (xs : List (Token × Option Nat)) :
    numbersOf (x :: xs) = numbersOf [x] + numbersOf xs := by
  unfold numbersOf
  rw [← List.countP_append, List.singleton_append]

/-- The three things that can happen at a token. -/
theorem overrun?_cases (max used : Nat) (t : Token) (opening : Option Nat) :
    opening = some max ∨ (opening ≠ some max ∧ t.kind = .number ∧ used = maxConstants) ∨
      (opening ≠ some max ∧ (t.kind = .number → used ≠ maxConstants)) := by
  by_cases hopen : opening = some max
  · exact .inl hopen
  · by_cases hfull : t.kind = .number ∧ used = maxConstants
    · exact .inr (.inl ⟨hopen, hfull⟩)
    · exact .inr (.inr ⟨hopen, fun ht hused => hfull ⟨ht, hused⟩⟩)

theorem overrun?_append (xs ys : List (Token × Option Nat)) :
    overrun? max used (xs ++ ys) =
      (overrun? max used xs).or (overrun? max (used + numbersOf xs) ys) := by
  induction xs generalizing used with
  | nil => rfl
  | cons x xs ih =>
      obtain ⟨t, opening⟩ := x
      rw [List.cons_append]
      obtain rfl | ⟨hopen, ht, rfl⟩ | ⟨hopen, hroom⟩ := overrun?_cases max used t opening
      · rw [overrun?_nested, overrun?_nested, Option.some_or]
      · rw [overrun?_full _ hopen ht, overrun?_full _ hopen ht, Option.some_or]
      · rw [overrun?_pass _ hopen hroom, overrun?_pass _ hopen hroom, ih,
          numbersOf_cons (t, opening) xs, Nat.add_assoc]

/-- Nothing is too much exactly if no operand is begun at the limit and there is room for the
numbers. -/
theorem overrun?_eq_none_iff {xs : List (Token × Option Nat)} (hused : used ≤ maxConstants) :
    overrun? max used xs = none ↔
      (∀ x ∈ xs, x.2 ≠ some max) ∧ used + numbersOf xs ≤ maxConstants := by
  induction xs generalizing used with
  | nil => simpa [overrun?, numbersOf] using hused
  | cons x xs ih =>
      obtain ⟨t, opening⟩ := x
      rw [numbersOf_cons, List.forall_mem_cons]
      obtain rfl | ⟨hopen, ht, rfl⟩ | ⟨hopen, hroom⟩ := overrun?_cases max used t opening
      · simp [overrun?_nested]
      · have hone : numbersOf [(t, opening)] = 1 := List.countP_cons_of_pos (decide_eq_true ht)
        rw [overrun?_full _ hopen ht, hone]
        simp only [reduceCtorEq, false_iff, not_and]
        omega
      · have hnext : used + numbersOf [(t, opening)] ≤ maxConstants := by
          by_cases ht : t.kind = .number
          · have hone : numbersOf [(t, opening)] = 1 :=
              List.countP_cons_of_pos (decide_eq_true ht)
            have := hroom ht
            omega
          · have hzero : numbersOf [(t, opening)] = 0 :=
              List.countP_cons_of_neg (by simpa using ht)
            omega
        rw [overrun?_pass _ hopen hroom, ih hnext, Nat.add_assoc]
        exact and_congr_left fun _ => (and_iff_right hopen).symm

/-- What is reported is reported at a token before which nothing is too much. -/
theorem exists_of_overrun? {xs : List (Token × Option Nat)} {d : Diagnostic}
    (h : overrun? max used xs = some d) :
    ∃ before t opening after, xs = before ++ (t, opening) :: after ∧
      overrun? max used before = none ∧
      (opening = some max ∧ d = t.blamed Complaint.nestedTooDeeply.message ∨
        opening ≠ some max ∧ t.kind = .number ∧ used + numbersOf before = maxConstants ∧
          d = t.blamed Complaint.tooManyConstants.message) := by
  induction xs generalizing used with
  | nil => cases h
  | cons x xs ih =>
      obtain ⟨t, opening⟩ := x
      obtain rfl | ⟨hopen, ht, rfl⟩ | ⟨hopen, hroom⟩ := overrun?_cases max used t opening
      · rw [overrun?_nested] at h
        exact ⟨[], t, some max, xs, rfl, rfl, .inl ⟨rfl, (Option.some.inj h).symm⟩⟩
      · rw [overrun?_full _ hopen ht] at h
        exact ⟨[], t, opening, xs, rfl, rfl, .inr ⟨hopen, ht, rfl, (Option.some.inj h).symm⟩⟩
      · rw [overrun?_pass _ hopen hroom] at h
        obtain ⟨before, u, o, after, rfl, hbefore, hfound⟩ := ih h
        refine ⟨(t, opening) :: before, u, o, after, rfl, ?_, ?_⟩
        · rw [overrun?_pass _ hopen hroom]
          exact hbefore
        · rw [numbersOf_cons, ← Nat.add_assoc]
          exact hfound

end Overrun

/-! ## Marked phrases -/

namespace Expr.Spells

variable {q : Phrase} {ts : List Token} {e : Expr}

theorem numbersOf_zip (h : Spells q ts e) (n : Nat) :
    numbersOf (ts.zip (e.openings n)) = e.literals.length := by
  have hmap : (ts.zip (e.openings n)).map Prod.fst = ts :=
    List.map_fst_zip (Nat.le_of_eq (h.length_openings n))
  calc numbersOf (ts.zip (e.openings n))
      = ((ts.zip (e.openings n)).map Prod.fst).countP (fun t => t.kind = .number) := by
        rw [List.countP_map]
        rfl
    _ = e.literals.length := by rw [hmap, List.countP_eq_length_filter, h.literals_eq]

/-- A phrase is within the limits. -/
theorem overrun?_eq_none_iff (h : Spells q ts e) (n budget : Nat) {used : Nat}
    (hused : used ≤ maxConstants) :
    overrun? (n + budget) used (ts.zip (e.openings n)) = none ↔
      e.nesting ≤ budget ∧ used + e.literals.length ≤ maxConstants := by
  have hmap : (ts.zip (e.openings n)).map Prod.snd = e.openings n :=
    List.map_snd_zip (Nat.le_of_eq (h.length_openings n).symm)
  have hmem : (∀ x ∈ ts.zip (e.openings n), x.2 ≠ some (n + budget)) ↔
      some (n + budget) ∉ e.openings n := by
    conv => rhs; rw [← hmap]
    rw [List.mem_map]
    exact ⟨fun hall ⟨x, hx, heq⟩ => hall x hx heq, fun hnot x hx heq => hnot ⟨x, hx, heq⟩⟩
  rw [Reckon.overrun?_eq_none_iff hused, hmem, e.mem_openings_iff, h.numbersOf_zip, Nat.not_lt]

end Expr.Spells

/-- A token with which an operand begins and that is no number, short of the limit. -/
theorem overrun?_openings {t : Token} (ht : t.kind ≠ .number) (n budget used : Nat)
    (ts : List Token) (os : List (Option Nat)) :
    overrun? (n + (budget + 1)) used ((t :: ts).zip (some n :: os)) =
      overrun? (n + 1 + budget) used (ts.zip os) := by
  have hopen : some n ≠ some (n + (budget + 1)) := by simp
  have hnext : n + (budget + 1) = n + 1 + budget := by omega
  rw [List.zip_cons_cons, overrun?, if_neg hopen, if_neg ht, hnext]

/-- A token that neither begins an operand nor is a number. -/
theorem overrun?_none {t : Token} (ht : t.kind ≠ .number) (max used : Nat)
    (rest : List (Token × Option Nat)) :
    overrun? max used ((t, none) :: rest) = overrun? max used rest := by
  rw [overrun?, if_neg (by simp), if_neg ht]

/-! ## Parsing reports it -/

namespace Compile.State

/-- What is true of a phrase that is ahead: if something in it is too much, the parser reports
what comes first. -/
def Overruns (q : Phrase) (ts : List Token) (e : Expr) : Prop :=
  ∀ (p : Precedence) (budget n : Nat) (s : State) (last : Token) (rest : List Token)
    (d : Diagnostic), p.rank ≤ q.precedence.rank → s.Awaits last (ts ++ rest) →
    s.diagnostic = none → (∀ t ∈ ts ++ rest, Readable t) →
    s.chunk.constants.size ≤ maxConstants →
    overrun? (n + budget) s.chunk.constants.size (ts.zip (e.openings n)) = some d →
    (s.parse budget p).diagnostic = some d

/-- A token is blamed if nothing was reported before. -/
theorem diagnostic_report_of_clear {s : State} (hs : s.diagnostic = none) (t : Token)
    (message : String) : (s.report t message).diagnostic = some (t.blamed message) := by
  rw [diagnostic_report, hs]
  rfl

/-- What was reported in an operand is not changed by the operators after it. -/
theorem diagnostic_parseOperators {s : State} {d : Diagnostic} (h : s.diagnostic = some d)
    (budget : Nat) (p : Precedence) : (s.parseOperators budget p).diagnostic = some d :=
  (kept_diagnostic d).operators ((kept_diagnostic d).parse budget) p s h

/-- Without budget the first token is too much. -/
theorem diagnostic_parse_zero {q : Phrase} {ts rest : List Token} {e : Expr} {p : Precedence}
    {n used : Nat} {s : State} {last : Token} {d : Diagnostic} (h : Spells q ts e)
    (hawaits : s.Awaits last (ts ++ rest)) (hs : s.diagnostic = none)
    (hover : overrun? n used (ts.zip (e.openings n)) = some d) :
    (s.parse 0 p).diagnostic = some d := by
  obtain ⟨t, ts, rfl⟩ := List.exists_cons_of_ne_nil h.ne_nil
  obtain ⟨os, hos⟩ := e.exists_openings_cons n
  rw [hos, List.zip_cons_cons, overrun?_nested] at hover
  have hcurrent : s.current = t := hawaits.current
  rw [parse_zero, hcurrent, diagnostic_report_of_clear hs, hover]

theorem overruns_number {t : Token} (ht : t.kind = .number) : Overruns .unary [t] (.number t) := by
  intro p budget n s last rest d _ hawaits hs hread _ hover
  cases budget with
  | zero => exact diagnostic_parse_zero (.number ht) hawaits hs hover
  | succ budget =>
      obtain ⟨hclear, hprevious, hchunk, _⟩ := hawaits.advance_readable hs hread
      have hnumeral := (hread t List.mem_cons_self).numeral ht
      have hopen : some n ≠ some (n + (budget + 1)) := by simp
      change overrun? _ _ ((t, some n) :: []) = _ at hover
      by_cases hfull : s.chunk.constants.size = maxConstants
      · rw [hfull, overrun?_full _ hopen ht] at hover
        have hreport : s.advance.writeNumber.diagnostic = some d := by
          unfold writeNumber writeConstant
          rw [hprevious, Decimal.read?_of_isNumeral hnumeral]
          simp only
          rw [if_pos (Nat.le_of_eq (by rw [hchunk, hfull])), diagnostic_report_of_clear hclear]
          exact hover
        rw [parse_succ, hprevious, ht]
        exact diagnostic_parseOperators hreport budget p
      · rw [overrun?_pass _ hopen fun _ => hfull] at hover
        cases hover

theorem overruns_negate {t : Token} {ts : List Token} {e : Expr} (ht : t.kind = .minus)
    (he : Spells .unary ts e) (ih : Overruns .unary ts e) :
    Overruns .unary (t :: ts) (.negate t.line e) := by
  intro p budget n s last rest d _ hawaits hs hread hroom hover
  cases budget with
  | zero => exact diagnostic_parse_zero (.negate ht he) hawaits hs hover
  | succ budget =>
      obtain ⟨hclear, hprevious, hchunk, hafter⟩ := hawaits.advance_readable hs hread
      rw [← hchunk] at hroom hover
      rw [Expr.openings, overrun?_openings (by rw [ht]; decide)] at hover
      have hinner := ih .unary budget (n + 1) s.advance last rest d (Nat.le_refl _) hafter hclear
        (fun u hu => hread u (List.mem_cons_of_mem _ hu)) hroom hover
      rw [parse_succ, hprevious, ht]
      refine diagnostic_parseOperators ?_ budget p
      exact hinner

theorem overruns_group {l r : Token} {ts : List Token} {e : Expr} (hl : l.kind = .leftParen)
    (he : Spells .sum ts e) (hr : r.kind = .rightParen) (ih : Overruns .sum ts e) :
    Overruns .unary (l :: ts ++ [r]) (.group e) := by
  intro p budget n s last rest d _ hawaits hs hread hroom hover
  cases budget with
  | zero => exact diagnostic_parse_zero (.group hl he hr) hawaits hs hover
  | succ budget =>
      rw [List.append_assoc, List.cons_append] at hawaits hread
      obtain ⟨hclear, hprevious, hchunk, hafter⟩ := hawaits.advance_readable hs hread
      rw [← hchunk] at hroom hover
      have hclosing : ∀ used, overrun? (n + 1 + budget) used [(r, none)] = none :=
        fun used => overrun?_none (by rw [hr]; decide) _ _ []
      rw [List.cons_append, Expr.openings, overrun?_openings (by rw [hl]; decide),
        List.zip_append (he.length_openings (n + 1)), overrun?_append, List.zip_cons_cons,
        List.zip_nil_left, hclosing, Option.or_none] at hover
      have hinner := ih .assignment budget (n + 1) s.advance last ([r] ++ rest) d (by decide)
        hafter hclear (fun u hu => hread u (List.mem_cons_of_mem _ hu)) hroom hover
      have hconsumed := (kept_diagnostic d).consume hinner .rightParen
        (c := .expectRightParen) (by decide)
      rw [parse_succ, hprevious, hl]
      exact diagnostic_parseOperators hconsumed budget p

/-- What is too much in the left operand is reported while that one is parsed.  If there is
nothing, parsing comes to the right operand with one operand more around it. -/
theorem overruns_binary {op : Operator} {t : Token} {ts us : List Token} {a b : Expr}
    (ha : Spells op.phrase ts a) (ht : t.kind = op.kind) (hb : Spells op.phrase.operand us b)
    (iha : Overruns op.phrase ts a) (ihb : Overruns op.phrase.operand us b) :
    Overruns op.phrase (ts ++ t :: us) (.binary op t.line a b) := by
  intro p budget n s last rest d hp hawaits hs hread hroom hover
  cases budget with
  | zero => exact diagnostic_parse_zero (ha.binary ht hb) hawaits hs hover
  | succ budget =>
      rw [List.append_assoc, List.cons_append] at hawaits hread
      have hnumber : t.kind ≠ .number := by
        rw [ht]
        cases op <;> decide
      rw [Expr.openings, List.zip_append (ha.length_openings n), overrun?_append,
        List.zip_cons_cons, overrun?_none hnumber, ha.numbersOf_zip] at hover
      cases hleft : overrun? (n + (budget + 1)) s.chunk.constants.size (ts.zip (a.openings n)) with
      | some d' =>
          rw [hleft, Option.some_or] at hover
          exact iha p (budget + 1) n s last (t :: us ++ rest) d hp hawaits hs hread hroom
            (hleft.trans hover)
      | none =>
          rw [hleft, Option.none_or] at hover
          obtain ⟨hnest, hroom'⟩ := (ha.overrun?_eq_none_iff n (budget + 1) hroom).mp hleft
          obtain ⟨s', heq, hclear, hyields⟩ :=
            (parse_complete ha).operator ht hp hawaits hs hread hnest hroom'
          have hnext : n + (budget + 1) = n + 1 + budget := by omega
          rw [← hyields.gains.size] at hroom'
          rw [← hyields.gains.size, hnext] at hover
          have hright := ihb op.precedence.next budget (n + 1) s' last rest d
            (Nat.le_of_eq (by rw [Expr.precedence_operand_phrase])) hyields.awaits hclear
            (fun u hu => hread u (List.mem_append_right _ (List.mem_cons_of_mem _ hu))) hroom'
            hover
          rw [heq]
          refine diagnostic_parseOperators ?_ budget p
          exact hright

theorem overruns_of_spells {q : Phrase} {ts : List Token} {e : Expr} (h : Spells q ts e) :
    Overruns q ts e := by
  induction h with
  | number ht => exact overruns_number ht
  | negate ht he ih => exact overruns_negate ht he ih
  | group hl he hr ih => exact overruns_group hl he hr ih
  | ofUnary _ ih =>
      intro p budget n s last rest d hp
      exact ih p budget n s last rest d (Nat.le_trans hp (by decide))
  | ofProduct _ ih =>
      intro p budget n s last rest d hp
      exact ih p budget n s last rest d (Nat.le_trans hp (by decide))
  | product hop ha ht hb iha ihb =>
      rcases hop with rfl | rfl
      · exact @overruns_binary .multiply _ _ _ _ _ ha ht hb iha ihb
      · exact @overruns_binary .divide _ _ _ _ _ ha ht hb iha ihb
  | sum hop ha ht hb iha ihb =>
      rcases hop with rfl | rfl
      · exact @overruns_binary .add _ _ _ _ _ ha ht hb iha ihb
      · exact @overruns_binary .subtract _ _ _ _ _ ha ht hb iha ihb

theorem finish_overrun {source : String} {maxNesting : Nat} {e : Expr} {d : Diagnostic}
    (he : Spells .sum (TokenStream.ofSource source).tokens e)
    (h : overrun? maxNesting 0 ((TokenStream.ofSource source).tokens.zip (e.openings 0)) =
      some d) :
    (finish source maxNesting).diagnostic = some d := by
  obtain ⟨hfirst, hawaits, hread⟩ := first_of_spells he
  have hempty : (start source).advance.chunk.constants.size = 0 := by
    rw [chunk_advance]
    rfl
  rw [← Nat.zero_add maxNesting] at h
  have hparsed := overruns_of_spells he .assignment maxNesting 0 _ _ [] d (by decide) hawaits
    hfirst hread (by rw [hempty]; exact Nat.zero_le _) (by rw [hempty]; exact h)
  exact (kept_diagnostic d).consume hparsed .eof (c := .expectEnd) (by decide)

end Compile.State

/-! ## Whole sources -/

open Compile.State

/-- What is too much at the `i`-th token of an expression.  The nesting is looked at first. -/
inductive Exceeds (max : Nat) (ts : List Token) (e : Expr) (i : Nat) : Token → String → Prop
  | nesting {t : Token} : ts[i]? = some t → (e.openings 0)[i]? = some (some max) →
      Exceeds max ts e i t "Expression nested too deeply."
  | constants {t : Token} : ts[i]? = some t → (e.openings 0)[i]? ≠ some (some max) →
      t.kind = .number → (ts.take i).countP (fun u => u.kind = .number) = 256 →
      Exceeds max ts e i t "Too many constants in one chunk."

namespace Exceeds

variable {max i : Nat} {ts : List Token} {e : Expr} {t : Token} {message : String}

theorem mem (h : Exceeds max ts e i t message) : t ∈ ts := by
  cases h with
  | nesting ht _ => exact List.mem_of_getElem? ht
  | constants ht _ _ _ => exact List.mem_of_getElem? ht

theorem numbersOf_take (hlength : ts.length = (e.openings 0).length) (i : Nat) :
    numbersOf ((ts.zip (e.openings 0)).take i) =
      (ts.take i).countP fun t => t.kind = .number := by
  have hmap : (ts.zip (e.openings 0)).map Prod.fst = ts :=
    List.map_fst_zip (Nat.le_of_eq hlength)
  conv => rhs; rw [← hmap, ← List.map_take, List.countP_map]
  rfl

/-- Where nothing is too much before a place, no token before that place exceeds a limit. -/
theorem not_of_lt (hlength : ts.length = (e.openings 0).length)
    (hnone : overrun? max 0 ((ts.zip (e.openings 0)).take i) = none) {j : Nat} (hj : j < i) :
    ¬Exceeds max ts e j t message := by
  obtain ⟨hopen, hroom⟩ := (overrun?_eq_none_iff (Nat.zero_le _)).mp hnone
  rw [Nat.zero_add, numbersOf_take hlength] at hroom
  intro h
  cases h with
  | nesting ht hnested =>
      have hmark : ((ts.zip (e.openings 0)).take i)[j]? = some (t, some max) := by
        rw [List.getElem?_take_of_lt hj]
        exact List.getElem?_zip_eq_some.mpr ⟨ht, hnested⟩
      exact hopen _ (List.mem_of_getElem? hmark) rfl
  | constants ht _ hkind hcount =>
      have hnext : (ts.take (j + 1)).countP (fun u => u.kind = .number) = 256 + 1 := by
        rw [List.take_add_one, ht, List.countP_append, hcount]
        exact congrArg _ (List.countP_cons_of_pos (decide_eq_true hkind))
      have hle := (List.take_sublist_take_left (l := ts) hj).countP_le
        (p := fun u => u.kind = .number)
      rw [hnext] at hle
      exact absurd (Nat.le_trans hle hroom) (by decide)

theorem of_overrun? (hlength : ts.length = (e.openings 0).length) {d : Diagnostic}
    (h : overrun? max 0 (ts.zip (e.openings 0)) = some d) :
    ∃ i t message, Exceeds max ts e i t message ∧ d = t.blamed message ∧
      overrun? max 0 ((ts.zip (e.openings 0)).take i) = none := by
  obtain ⟨before, t, opening, after, hsplit, hbefore, hfound⟩ := exists_of_overrun? h
  have htake : (ts.zip (e.openings 0)).take before.length = before := by
    rw [hsplit, List.take_left]
  have hmark : (ts.zip (e.openings 0))[before.length]? = some (t, opening) := by
    rw [hsplit]
    simp
  obtain ⟨ht, hopening⟩ := List.getElem?_zip_eq_some.mp hmark
  refine ⟨before.length, t, ?_⟩
  rw [htake]
  rcases hfound with ⟨rfl, rfl⟩ | ⟨hopen, hkind, hcount, rfl⟩
  · exact ⟨_, .nesting ht hopening, rfl, hbefore⟩
  · refine ⟨_, .constants ht ?_ hkind ?_, rfl, hbefore⟩
    · rw [hopening]
      exact fun heq => hopen (Option.some.inj heq)
    · rw [← numbersOf_take hlength, htake, ← Nat.zero_add (numbersOf before), hcount]
      rfl

end Exceeds

/-- A sentence compiles exactly if it exceeds no limit.  Otherwise it has one diagnostic, about
the first token that exceeds one: an operand begins there although `maxNesting` operands are
open around it, or it is the number after the first 256.  The diagnostic has the line and the
lexeme of the token. -/
theorem compile_beyond_limits {o : Options} {source : String} {e : Expr}
    (he : Spells .sum (TokenStream.ofSource source).tokens e) :
    let tokens := (TokenStream.ofSource source).tokens
    ((∃ c, (compile o source).result = .ok c) ↔
      ∀ i t message, ¬Exceeds o.maxNesting tokens e i t message) ∧
    ∀ err, (compile o source).result = .error err →
      ∃ i t message, Exceeds o.maxNesting tokens e i t message ∧
        (∀ j < i, ∀ t' message', ¬Exceeds o.maxNesting tokens e j t' message') ∧
        err.diagnostics = [⟨t.line, .token t.lexeme, message⟩] := by
  intro tokens
  have hlength : tokens.length = (e.openings 0).length := he.length_openings 0
  cases hover : overrun? o.maxNesting 0 (tokens.zip (e.openings 0)) with
  | none =>
      have hlimits := (he.overrun?_eq_none_iff 0 o.maxNesting (Nat.zero_le _)).mp
        (by rw [Nat.zero_add]; exact hover)
      rw [Nat.zero_add] at hlimits
      obtain ⟨c, hc⟩ := compile_complete he hlimits.1 hlimits.2
      refine ⟨⟨fun _ i t message => ?_, fun _ => ⟨c, hc⟩⟩, fun err herr => ?_⟩
      · refine Exceeds.not_of_lt (i := i + 1 + (tokens.zip (e.openings 0)).length) hlength ?_
          (Nat.lt_of_lt_of_le (Nat.lt_succ_self i) (Nat.le_add_right ..))
        rw [List.take_of_length_le (Nat.le_add_left ..)]
        exact hover
      · rw [hc] at herr
        cases herr
  | some d =>
      have hfailed : (compile o source).result = .error ⟨[d]⟩ := by
        rw [compile_result, finish_overrun he hover]
      obtain ⟨i, t, message, hexceeds, rfl, hnone⟩ := Exceeds.of_overrun? hlength hover
      have hmem : t ∈ tokens := hexceeds.mem
      refine ⟨⟨fun ⟨c, hc⟩ => ?_, fun hno => absurd hexceeds (hno i t message)⟩,
        fun err herr => ?_⟩
      · rw [hfailed] at hc
        cases hc
      · rw [hfailed] at herr
        cases herr
        refine ⟨i, t, message, hexceeds, fun j hj _ _ => Exceeds.not_of_lt hlength hnone hj, ?_⟩
        rw [Token.blamed_eq (he.kind_ne_fault t hmem),
          if_neg (TokenStream.kind_ne_eof_of_mem hmem)]

/-- The number in parentheses is begun inside the parentheses, and those inside the sum. -/
theorem compile_beyond_limits_group :
    (compile { maxNesting := 2 } "1 * 2\n+ (3)").result =
      .error ⟨[⟨2, .token "3", "Expression nested too deeply."⟩]⟩ := by
  have htokens : (TokenStream.ofSource "1 * 2\n+ (3)").tokens =
      [⟨.number, 0, 1, 1, "1"⟩] ++ ⟨.star, 2, 1, 1, "*"⟩ :: [⟨.number, 4, 1, 1, "2"⟩] ++
        ⟨.plus, 6, 1, 2, "+"⟩ :: ([⟨.leftParen, 8, 1, 2, "("⟩, ⟨.number, 9, 1, 2, "3"⟩] ++
        [⟨.rightParen, 10, 1, 2, ")"⟩]) := by
    decide +kernel
  have he : Spells .sum (TokenStream.ofSource "1 * 2\n+ (3)").tokens
      (.binary .add 2 (.binary .multiply 1 (.number ⟨.number, 0, 1, 1, "1"⟩)
        (.number ⟨.number, 4, 1, 1, "2"⟩)) (.group (.number ⟨.number, 9, 1, 2, "3"⟩))) := by
    rw [htokens]
    exact .sum (.inl rfl)
      (.ofProduct (.product (.inl rfl) (.ofUnary (.number rfl)) rfl (.number rfl))) rfl
      (.ofUnary (.group rfl (.ofProduct (.ofUnary (.number rfl))) rfl))
  obtain ⟨hok, hfirst⟩ := compile_beyond_limits (o := { maxNesting := 2 }) he
  rw [htokens] at hok hfirst
  cases hresult : (compile { maxNesting := 2 } "1 * 2\n+ (3)").result with
  | ok c => exact absurd (.nesting rfl rfl) (hok.mp ⟨c, hresult⟩ 5 ⟨.number, 9, 1, 2, "3"⟩ _)
  | error err =>
      obtain ⟨i, t, message, hexceeds, hbefore, hdiagnostics⟩ := hfirst err hresult
      have hle : i ≤ 5 := Nat.le_of_not_lt fun hlt => hbefore 5 hlt _ _ (.nesting rfl rfl)
      rcases Nat.lt_or_eq_of_le hle with hlt | rfl
      · exact absurd hexceeds (Exceeds.not_of_lt (i := 5) rfl rfl hlt)
      · cases hexceeds with
        | nesting ht _ =>
            cases ht
            exact congrArg (fun ds => Except.error (CompileError.mk ds)) hdiagnostics
        | constants _ hopen _ _ => exact absurd rfl hopen

end Reckon
