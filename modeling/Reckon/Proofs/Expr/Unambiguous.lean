/-
# The grammar of expressions is unambiguous

Tokens spell at most one tree.  The rules of `Spells` are left-recursive, so two
derivations for the same tokens cannot be compared rule by rule: nothing at the head
of the tokens tells how long the left operand is.  They are compared in another form.
A phrase is one tighter phrase and then a `Tail`, operators with their right operands,
read from left to right; there the next token does decide.

What has to be proved is more than uniqueness for the same tokens.  Two phrases are
compared that stand at the head of the same tokens, each followed by something that
cannot continue it (`Stops`), and both the tokens they take up and their trees are
equal.  That is the form in which a phrase inside parentheses meets its closing one.
-/
import Reckon.Expr.Grammar

namespace Reckon

namespace Operator

/-- The kind of phrase that an operator builds. -/
def phrase : Operator → Expr.Phrase
  | add | subtract => .sum
  | multiply | divide => .product

theorem ofKind?_eq_some_iff {k : Kind} {op : Operator} : ofKind? k = some op ↔ k = op.kind := by
  constructor
  · intro h
    unfold ofKind? at h
    split at h
    all_goals cases h
    all_goals rfl
  · rintro rfl
    cases op <;> rfl

theorem kind_injective {op op' : Operator} (h : op.kind = op'.kind) : op = op' :=
  Option.some.inj ((ofKind?_eq_some_iff.mpr rfl).symm.trans (ofKind?_eq_some_iff.mpr h))

theorem kind_ne_eof (op : Operator) : op.kind ≠ .eof := by
  cases op <;> exact Kind.noConfusion

theorem kind_ne_fault (op : Operator) : op.kind ≠ .fault := by
  cases op <;> exact Kind.noConfusion

end Operator

namespace Expr

/-! ## Levels

Phrases and operators on the one scale of precedence. -/

/-- How tightly an operator has to bind to continue a phrase. -/
def Phrase.precedence : Phrase → Precedence
  | sum => .term
  | product => .factor
  | unary => .unary

/-- The kind of phrase between the operators of a phrase. -/
def Phrase.operand : Phrase → Phrase
  | sum => product
  | product => unary
  | unary => unary

theorem precedence_phrase (op : Operator) : op.phrase.precedence = op.precedence := by
  cases op <;> rfl

theorem precedence_operand_phrase (op : Operator) :
    op.phrase.operand.precedence = op.precedence.next := by
  cases op <;> rfl

theorem rank_lt_rank_operand (op : Operator) :
    op.precedence.rank < op.phrase.operand.precedence.rank := by
  cases op <;> decide

theorem rank_le_rank_operand (q : Phrase) : q.precedence.rank ≤ q.operand.precedence.rank := by
  cases q <;> decide

/-- An operator binds less tightly than a minus sign before an operand. -/
theorem rank_lt_rank_unary (op : Operator) : op.precedence.rank < Precedence.unary.rank := by
  cases op <;> decide

/-- A phrase is also a phrase of every looser kind. -/
theorem Spells.loosen {q q' : Phrase} {ts : List Token} {e : Expr} (h : Spells q ts e)
    (hq : q'.precedence.rank ≤ q.precedence.rank) : Spells q' ts e := by
  cases q with
  | sum =>
      cases q' with
      | sum => exact h
      | product => exact absurd hq (by decide)
      | unary => exact absurd hq (by decide)
  | product =>
      cases q' with
      | sum => exact .ofProduct h
      | product => exact h
      | unary => exact absurd hq (by decide)
  | unary =>
      cases q' with
      | sum => exact .ofProduct (.ofUnary h)
      | product => exact .ofUnary h
      | unary => exact h

/-- The two rules for operators as one. -/
theorem Spells.binary {op : Operator} {t : Token} {ts us : List Token} {a b : Expr}
    (ha : Spells op.phrase ts a) (ht : t.kind = op.kind) (hb : Spells op.phrase.operand us b) :
    Spells op.phrase (ts ++ t :: us) (.binary op t.line a b) := by
  cases op with
  | add => exact .sum (Or.inl rfl) ha ht hb
  | subtract => exact .sum (Or.inr rfl) ha ht hb
  | multiply => exact .product (Or.inl rfl) ha ht hb
  | divide => exact .product (Or.inr rfl) ha ht hb

/-- `Stops p ts`: the first of the tokens `ts` is no operator that binds at least as tightly
as `p`. -/
def Stops (p : Precedence) (ts : List Token) : Prop :=
  ∀ t ∈ ts.head?, ∀ op : Operator, t.kind = op.kind → op.precedence.rank < p.rank

theorem Stops.nil (p : Precedence) : Stops p [] := by
  intro t ht
  cases ht

theorem Stops.cons {p : Precedence} {t : Token} {ts : List Token}
    (h : ∀ op : Operator, t.kind = op.kind → op.precedence.rank < p.rank) :
    Stops p (t :: ts) := by
  intro t' ht'
  cases ht'
  exact h

theorem Stops.mono {p p' : Precedence} {ts : List Token} (h : Stops p ts)
    (hp : p.rank ≤ p'.rank) : Stops p' ts :=
  fun t ht op hop => Nat.lt_of_lt_of_le (h t ht op hop) hp

theorem Stops.rightParen {r : Token} (hr : r.kind = .rightParen) (p : Precedence)
    (ts : List Token) : Stops p (r :: ts) := by
  refine Stops.cons fun op hop => ?_
  cases op <;> cases hr.symm.trans hop

/-- Nothing continues a phrase that holds no operator. -/
theorem Stops.unary (ts : List Token) : Stops .unary ts :=
  fun _ _ op _ => rank_lt_rank_unary op

/-! ## Tails -/

/-- `Tail q a ts e`: the tokens `ts`, operators of the phrase `q` with their right operands,
continue the tree `a` to the tree `e`. -/
inductive Tail (q : Phrase) : Expr → List Token → Expr → Prop
  | nil {a : Expr} : Tail q a [] a
  | cons {op : Operator} {t : Token} {us ts : List Token} {a b e : Expr}
      (hop : op.phrase = q) (ht : t.kind = op.kind) (hb : Spells q.operand us b)
      (h : Tail q (.binary op t.line a b) ts e) : Tail q a (t :: (us ++ ts)) e

/-- A tail grows at its end as well. -/
theorem Tail.snoc {q : Phrase} {a e b : Expr} {ts us : List Token} {op : Operator} {t : Token}
    (h : Tail q a ts e) (hop : op.phrase = q) (ht : t.kind = op.kind)
    (hb : Spells q.operand us b) : Tail q a (ts ++ t :: us) (.binary op t.line e b) := by
  induction h with
  | nil =>
      rw [List.nil_append, ← List.append_nil us]
      exact .cons hop ht hb .nil
  | cons hop' ht' hb' _ ih =>
      rw [List.cons_append, List.append_assoc]
      exact .cons hop' ht' hb' ih

/-- A phrase is an operand and a tail. -/
theorem Spells.split {q : Phrase} {ts : List Token} {e : Expr} (h : Spells q ts e) :
    ∃ us vs a, ts = us ++ vs ∧ Spells q.operand us a ∧ Tail q a vs e := by
  induction h with
  | number ht => exact ⟨_, [], _, (List.append_nil _).symm, .number ht, .nil⟩
  | negate ht he => exact ⟨_, [], _, (List.append_nil _).symm, .negate ht he, .nil⟩
  | group hl he hr => exact ⟨_, [], _, (List.append_nil _).symm, .group hl he hr, .nil⟩
  | ofUnary he => exact ⟨_, [], _, (List.append_nil _).symm, he, .nil⟩
  | ofProduct he => exact ⟨_, [], _, (List.append_nil _).symm, he, .nil⟩
  | product hop _ ht hb iha =>
      obtain ⟨us, vs, a, rfl, ha, hvs⟩ := iha
      refine ⟨us, _, a, List.append_assoc .., ha, hvs.snoc ?_ ht hb⟩
      rcases hop with rfl | rfl <;> rfl
  | sum hop _ ht hb iha =>
      obtain ⟨us, vs, a, rfl, ha, hvs⟩ := iha
      refine ⟨us, _, a, List.append_assoc .., ha, hvs.snoc ?_ ht hb⟩
      rcases hop with rfl | rfl <;> rfl

/-- An operand ends where a tail or the end of its phrase begins. -/
theorem Tail.stops {q : Phrase} {a e : Expr} {ts k : List Token} (h : Tail q a ts e)
    (hk : Stops q.precedence k) : Stops q.operand.precedence (ts ++ k) := by
  cases h with
  | nil => exact hk.mono (rank_le_rank_operand q)
  | @cons op t us ts a b e hop ht hb h =>
      refine Stops.cons fun op' hop' => ?_
      rw [Operator.kind_injective (hop'.symm.trans ht), ← hop]
      exact rank_lt_rank_operand op

/-- Where a phrase stops, no tail of it begins. -/
theorem Tail.eq_nil {q : Phrase} {a e : Expr} {ts k k' : List Token} (h : Tail q a ts e)
    (hk : Stops q.precedence k) (hts : k = ts ++ k') : ts = [] ∧ e = a := by
  cases h with
  | nil => exact ⟨rfl, rfl⟩
  | @cons op t us ts a b e hop ht hb h =>
      subst hts
      have hlt := hk t rfl op ht
      rw [← hop, precedence_phrase] at hlt
      exact absurd hlt (Nat.lt_irrefl _)

/-! ## Phrases at the head of the same tokens -/

/-- Phrases of the kind `q` with at most `n` tokens are determined by what they stand at the
head of. -/
def Determined (q : Phrase) (n : Nat) : Prop :=
  ∀ (ts ts' k k' : List Token) (e e' : Expr), ts.length ≤ n → Spells q ts e → Spells q ts' e' →
    ts ++ k = ts' ++ k' → Stops q.precedence k → Stops q.precedence k' → ts = ts' ∧ e = e'

theorem Tail.determined {q : Phrase} {n : Nat} (hn : Determined q.operand n) {a e : Expr}
    {ts : List Token} (h : Tail q a ts e) :
    ∀ {ts' k k' : List Token} {e' : Expr}, ts.length ≤ n → Tail q a ts' e' →
      ts ++ k = ts' ++ k' → Stops q.precedence k → Stops q.precedence k' → ts = ts' ∧ e = e' := by
  induction h with
  | nil =>
      intro ts' k k' e' _ h' heq hk _
      obtain ⟨rfl, rfl⟩ := h'.eq_nil hk heq
      exact ⟨rfl, rfl⟩
  | @cons op t us ts a b e hop ht hb h ih =>
      intro ts' k k' e' hlen h' heq hk hk'
      cases h' with
      | nil =>
          obtain ⟨hnil, _⟩ := (Tail.cons hop ht hb h).eq_nil hk' heq.symm
          cases hnil
      | @cons op' t' us' ts' _ b' _ hop' ht' hb' h' =>
          -- the operator is read off the first token, the operand is the one before `ts ++ k`
          simp only [List.cons_append, List.append_assoc, List.cons.injEq] at heq
          obtain ⟨rfl, heq⟩ := heq
          obtain rfl := Operator.kind_injective (ht.symm.trans ht')
          simp only [List.length_cons, List.length_append] at hlen
          obtain ⟨rfl, rfl⟩ := hn _ _ _ _ _ _ (by omega) hb hb' heq (h.stops hk) (h'.stops hk')
          obtain ⟨rfl, rfl⟩ := ih (by omega) h' (List.append_cancel_left heq) hk hk'
          exact ⟨rfl, rfl⟩

/-- What is determined for operands is determined for phrases. -/
theorem Determined.ofOperand {q : Phrase} {n : Nat} (hn : Determined q.operand n) :
    Determined q n := by
  intro ts ts' k k' e e' hlen h h' heq hk hk'
  obtain ⟨us, vs, a, rfl, hus, hvs⟩ := h.split
  obtain ⟨us', vs', a', rfl, hus', hvs'⟩ := h'.split
  simp only [List.append_assoc, List.length_append] at heq hlen
  obtain ⟨rfl, rfl⟩ := hn _ _ _ _ _ _ (by omega) hus hus' heq (hvs.stops hk) (hvs'.stops hk')
  obtain ⟨rfl, rfl⟩ := hvs.determined hn (by omega) hvs' (List.append_cancel_left heq) hk hk'
  exact ⟨rfl, rfl⟩

/-- The first token decides between the rules for a phrase without operators; what is left
to determine is shorter. -/
theorem Determined.ofShorter {n : Nat} (hsum : ∀ m < n, Determined .sum m)
    (hunary : ∀ m < n, Determined .unary m) : Determined .unary n := by
  intro ts ts' k k' e e' hlen h h' heq hk hk'
  cases h with
  | number ht =>
      cases h' with
      | number ht' =>
          obtain ⟨rfl, _⟩ := List.cons.inj heq
          exact ⟨rfl, rfl⟩
      | negate ht' he' =>
          obtain ⟨rfl, _⟩ := List.cons.inj heq
          exact absurd (ht.symm.trans ht') (by decide)
      | group hl' he' hr' =>
          obtain ⟨rfl, _⟩ := List.cons.inj heq
          exact absurd (ht.symm.trans hl') (by decide)
  | @negate t ts e ht he =>
      cases h' with
      | number ht' =>
          obtain ⟨rfl, _⟩ := List.cons.inj heq
          exact absurd (ht.symm.trans ht') (by decide)
      | negate ht' he' =>
          obtain ⟨rfl, hrest⟩ := List.cons.inj heq
          obtain ⟨rfl, rfl⟩ :=
            hunary ts.length hlen _ _ _ _ _ _ (Nat.le_refl _) he he' hrest hk hk'
          exact ⟨rfl, rfl⟩
      | group hl' he' hr' =>
          obtain ⟨rfl, _⟩ := List.cons.inj heq
          exact absurd (ht.symm.trans hl') (by decide)
  | @group l r ts e hl he hr =>
      cases h' with
      | number ht' =>
          obtain ⟨rfl, _⟩ := List.cons.inj heq
          exact absurd (hl.symm.trans ht') (by decide)
      | negate ht' he' =>
          obtain ⟨rfl, _⟩ := List.cons.inj heq
          exact absurd (hl.symm.trans ht') (by decide)
      | @group l' r' ts' e' hl' he' hr' =>
          simp only [List.cons_append, List.append_assoc, List.nil_append, List.cons.injEq] at heq
          obtain ⟨rfl, heq⟩ := heq
          have hshort : ts.length < n := by
            simp only [List.length_cons, List.length_append] at hlen
            omega
          obtain ⟨rfl, rfl⟩ :=
            hsum ts.length hshort _ _ _ _ _ _ (Nat.le_refl _) he he' heq
              (.rightParen hr _ _) (.rightParen hr' _ _)
          obtain ⟨rfl, _⟩ := List.cons.inj (List.append_cancel_left heq)
          exact ⟨rfl, rfl⟩

theorem determined_unary (n : Nat) : Determined .unary n := by
  induction n using Nat.strongRecOn with
  | ind n ih =>
      exact Determined.ofShorter (fun m hm => Determined.ofOperand (Determined.ofOperand (ih m hm))) ih

theorem determined (q : Phrase) (n : Nat) : Determined q n := by
  cases q with
  | sum => exact Determined.ofOperand (Determined.ofOperand (determined_unary n))
  | product => exact Determined.ofOperand (determined_unary n)
  | unary => exact determined_unary n

/-- Tokens spell at most one tree. -/
theorem Spells.unique {q : Phrase} {ts : List Token} {e e' : Expr} (h : Spells q ts e)
    (h' : Spells q ts e') : e = e' :=
  (determined q ts.length ts ts [] [] e e' (Nat.le_refl _) h h' rfl (.nil _) (.nil _)).2

end Expr

end Reckon
