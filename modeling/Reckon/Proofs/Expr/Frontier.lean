/-
# Beginnings of sentences

A sentence is a sum with the end token after it.  Tokens are viable if some sentence begins
with them.  Whether they are does not depend on precedence: all that matters is whether an
operand or an operator has to come next, and how many parentheses are open.  These two make
up the frontier of the tokens, and one token moves it on or cannot come next
(`Frontier.step`).

* A phrase leads from a frontier that wants an operand to the one that wants an operator,
  with as many parentheses open (`Spells.run`), so what begins a sentence has a frontier.
* Conversely, what has a frontier can be completed.  The trees do not help here, because a
  further operator may regroup them.  It is enough that sums, taken as plain token lists,
  can be joined by operators and negated (`IsSum.join`, `IsSum.negate`).  The invariant is
  `Frontier.Completes`: whatever closes the open parentheses, with further operands on the
  way, makes a sum out of the tokens.

So viability is decided by running over the tokens once (`viable_iff`).
-/
import Reckon.Proofs.Expr.Unambiguous

namespace Reckon.Expr

/-- The tokens are a sum. -/
def IsSum (ts : List Token) : Prop := ∃ e, Spells .sum ts e

/-- The tokens are a sum and the end token after it. -/
def Sentence (ts : List Token) : Prop :=
  ∃ us last, IsSum us ∧ last.kind = .eof ∧ ts = us ++ [last]

/-- The tokens are the beginning of a sentence. -/
def Viable (ts : List Token) : Prop := ∃ more, Sentence (ts ++ more)

/-- `Admits ts k`: in some sentence that begins with `ts`, a token of the kind `k` comes next. -/
def Admits (ts : List Token) (k : Kind) : Prop := ∃ t : Token, t.kind = k ∧ Viable (ts ++ [t])

/-- `Misfit ts k`: of all places in `ts`, `k` is the first up to which the tokens do not begin a
sentence. -/
structure Misfit (ts : List Token) (k : Nat) : Prop where
  lt : k < ts.length
  broken : ¬Viable (ts.take (k + 1))
  least : ∀ j < k, Viable (ts.take (j + 1))

/-! ## Sums as token lists -/

/-- One more factor or summand after a sum. -/
theorem Spells.extend {us vs : List Token} {a b : Expr} {op : Operator} {t : Token}
    (ha : Spells .sum us a) (ht : t.kind = op.kind) (hb : Spells .unary vs b) :
    IsSum (us ++ t :: vs) := by
  cases op with
  | add => exact ⟨_, .sum (.inl rfl) ha ht (.ofUnary hb)⟩
  | subtract => exact ⟨_, .sum (.inr rfl) ha ht (.ofUnary hb)⟩
  | multiply | divide =>
      -- the factor belongs to the last summand
      cases ha with
      | ofProduct ha => exact ⟨_, .ofProduct (.product (by simp) ha ht hb)⟩
      | sum hop ha ht' hlast =>
          rw [List.append_assoc, List.cons_append]
          exact ⟨_, .sum hop ha ht' (.product (by simp) hlast ht hb)⟩

/-- An operator and any phrase after a sum. -/
theorem Spells.append {q : Phrase} {us vs : List Token} {b : Expr} {op : Operator} {t : Token}
    (hvs : Spells q vs b) (hus : IsSum us) (ht : t.kind = op.kind) : IsSum (us ++ t :: vs) := by
  induction hvs generalizing us t op with
  | number hn =>
      obtain ⟨a, ha⟩ := hus
      exact ha.extend ht (.number hn)
  | negate hm he =>
      obtain ⟨a, ha⟩ := hus
      exact ha.extend ht (.negate hm he)
  | group hl he hr =>
      obtain ⟨a, ha⟩ := hus
      exact ha.extend ht (.group hl he hr)
  | ofUnary _ ih => exact ih hus ht
  | ofProduct _ ih => exact ih hus ht
  | product _ _ ht' hlast ih =>
      obtain ⟨a, ha⟩ := ih hus ht
      have hsum := ha.extend ht' hlast
      rw [List.append_assoc, List.cons_append] at hsum
      exact hsum
  | sum _ _ ht' _ ih ihlast =>
      have hsum := ihlast (ih hus ht) ht'
      rw [List.append_assoc, List.cons_append] at hsum
      exact hsum

/-- Two sums with an operator between them. -/
theorem IsSum.join {us vs : List Token} {op : Operator} {t : Token} (hus : IsSum us)
    (ht : t.kind = op.kind) (hvs : IsSum vs) : IsSum (us ++ t :: vs) := by
  obtain ⟨b, hb⟩ := hvs
  exact hb.append hus ht

theorem isSum_of_unary {ts : List Token} {e : Expr} (h : Spells .unary ts e) : IsSum ts :=
  ⟨e, .ofProduct (.ofUnary h)⟩

/-- A minus sign before any phrase. -/
theorem Spells.isSum_negate {q : Phrase} {ts : List Token} {e : Expr} {m : Token}
    (h : Spells q ts e) (hm : m.kind = .minus) : IsSum (m :: ts) := by
  induction h with
  | number hn => exact isSum_of_unary (.negate hm (.number hn))
  | negate hm' he => exact isSum_of_unary (.negate hm (.negate hm' he))
  | group hl he hr => exact isSum_of_unary (.negate hm (.group hl he hr))
  | ofUnary _ ih => exact ih
  | ofProduct _ ih => exact ih
  | product _ _ ht hlast ih =>
      obtain ⟨a, ha⟩ := ih
      exact ha.extend ht hlast
  | sum _ _ ht hlast ih => exact hlast.append ih ht

theorem IsSum.negate {ts : List Token} {m : Token} (h : IsSum ts) (hm : m.kind = .minus) :
    IsSum (m :: ts) := by
  obtain ⟨e, he⟩ := h
  exact he.isSum_negate hm

theorem IsSum.group {ts : List Token} {l r : Token} (h : IsSum ts) (hl : l.kind = .leftParen)
    (hr : r.kind = .rightParen) : IsSum (l :: ts ++ [r]) := by
  obtain ⟨e, he⟩ := h
  exact isSum_of_unary (.group hl he hr)

/-! ## Frontiers -/

/-- What has to come next, and how many parentheses are open. -/
inductive Frontier where
  | operand (depth : Nat)
  | operator (depth : Nat)
  /-- Nothing comes after the end token. -/
  | closed
deriving DecidableEq, Repr

namespace Frontier

/-- The frontier before the first token. -/
def start : Frontier := operand 0

/-- The frontier after the first token of an operand. -/
def stepOperand (depth : Nat) : Kind → Option Frontier
  | .number => some (operator depth)
  | .minus => some (operand depth)
  | .leftParen => some (operand (depth + 1))
  | _ => none

/-- The frontier after a token that follows an operand. -/
def stepOperator (depth : Nat) (kind : Kind) : Option Frontier :=
  match kind, depth with
  | .rightParen, depth + 1 => some (operator depth)
  | .eof, 0 => some closed
  | kind, depth => (Operator.ofKind? kind).map fun _ => operand depth

/-- The frontier after one more token, if that can come next. -/
def step : Frontier → Kind → Option Frontier
  | operand depth, kind => stepOperand depth kind
  | operator depth, kind => stepOperator depth kind
  | closed, _ => none

/-- The frontier after some tokens, if each of them can come next in turn. -/
def run (f : Frontier) : List Token → Option Frontier
  | [] => some f
  | t :: ts => (f.step t.kind).bind (·.run ts)

/-- The number of open parentheses. -/
def depth : Frontier → Nat
  | operand depth => depth
  | operator depth => depth
  | closed => 0

theorem run_cons {f g : Frontier} {t : Token} (ts : List Token) (h : f.step t.kind = some g) :
    f.run (t :: ts) = g.run ts := by
  rw [run, h, Option.bind_some]

theorem run_append (f : Frontier) (us vs : List Token) :
    f.run (us ++ vs) = (f.run us).bind (·.run vs) := by
  induction us generalizing f with
  | nil => rfl
  | cons t us ih =>
      rw [List.cons_append, run, run]
      cases f.step t.kind with
      | none => rfl
      | some g => exact ih g

theorem run_of_append {f g : Frontier} {us vs : List Token} (h : f.run us = some g) :
    f.run (us ++ vs) = g.run vs := by
  rw [run_append, h, Option.bind_some]

theorem step_operator (depth : Nat) {k : Kind} {op : Operator} (h : k = op.kind) :
    (operator depth).step k = some (operand depth) := by
  cases op <;> subst h <;> cases depth <;> rfl

theorem step_operand_eq_some {depth : Nat} {k : Kind} {g : Frontier}
    (h : (operand depth).step k = some g) :
    (k = .number ∧ g = operator depth) ∨ (k = .minus ∧ g = operand depth) ∨
      (k = .leftParen ∧ g = operand (depth + 1)) := by
  simp only [step, stepOperand] at h
  split at h
  all_goals cases h
  · exact .inl ⟨rfl, rfl⟩
  · exact .inr (.inl ⟨rfl, rfl⟩)
  · exact .inr (.inr ⟨rfl, rfl⟩)

theorem step_operator_eq_some {depth : Nat} {k : Kind} {g : Frontier}
    (h : (operator depth).step k = some g) :
    (k = .rightParen ∧ ∃ n, depth = n + 1 ∧ g = operator n) ∨
      (k = .eof ∧ depth = 0 ∧ g = closed) ∨ ∃ op : Operator, k = op.kind ∧ g = operand depth := by
  simp only [step, stepOperator] at h
  split at h
  · cases h
    exact .inl ⟨rfl, _, rfl, rfl⟩
  · cases h
    exact .inr (.inl ⟨rfl, rfl, rfl⟩)
  · obtain ⟨op, hop, rfl⟩ := Option.map_eq_some_iff.mp h
    exact .inr (.inr ⟨op, Operator.ofKind?_eq_some_iff.mp hop, rfl⟩)

end Frontier

open Frontier

/-- A phrase is an operand, and every parenthesis in it is closed in it. -/
theorem Spells.run {q : Phrase} {ts : List Token} {e : Expr} (h : Spells q ts e) (depth : Nat) :
    (operand depth).run ts = some (operator depth) := by
  induction h generalizing depth with
  | number ht => rw [Frontier.run, ht]; rfl
  | negate ht _ ih => rw [Frontier.run, ht]; exact ih depth
  | @group l r ts _ hl _ hr ih =>
      have hopen : (operand depth).run (l :: ts) = some (operator (depth + 1)) := by
        rw [Frontier.run, hl]
        exact ih (depth + 1)
      rw [run_of_append hopen, Frontier.run, hr]
      rfl
  | ofUnary _ ih => exact ih depth
  | ofProduct _ ih => exact ih depth
  | product _ _ ht _ iha ihb =>
      rw [run_of_append (iha depth), run_cons _ (step_operator depth ht)]
      exact ihb depth
  | sum _ _ ht _ iha ihb =>
      rw [run_of_append (iha depth), run_cons _ (step_operator depth ht)]
      exact ihb depth

/-! ## Completing what was begun -/

/-- `Closing depth ts`: the tokens `ts` close `depth` parentheses; operators with further sums
may stand before and between the closing ones. -/
inductive Closing : Nat → List Token → Prop
  | done : Closing 0 []
  | operator {op : Operator} {t : Token} {vs ts : List Token} {depth : Nat}
      (ht : t.kind = op.kind) (hvs : IsSum vs) (h : Closing depth ts) :
      Closing depth (t :: (vs ++ ts))
  | close {r : Token} {ts : List Token} {depth : Nat} (hr : r.kind = .rightParen)
      (h : Closing depth ts) : Closing (depth + 1) (r :: ts)

/-- `f.Completes us`: where `us` has the frontier `f`, whatever closes it gives a sum. -/
def Frontier.Completes : Frontier → List Token → Prop
  | operand depth, us => ∀ vs ts, IsSum vs → Closing depth ts → IsSum (us ++ (vs ++ ts))
  | operator depth, us => ∀ ts, Closing depth ts → IsSum (us ++ ts)
  | closed, us => Sentence us

/-- What closes one more parenthesis closes the one that was opened before `vs`. -/
theorem Closing.group {us vs ts : List Token} {l : Token} {depth : Nat}
    (hus : (operand depth).Completes us) (hl : l.kind = .leftParen) (hvs : IsSum vs)
    (h : Closing (depth + 1) ts) : IsSum (us ++ (l :: (vs ++ ts))) := by
  generalize hn : depth + 1 = n at h
  induction h generalizing vs with
  | done => cases hn
  | @operator op t vs' ts _ ht hvs' _ ih =>
      have hjoined := ih (hvs.join ht hvs') hn
      rw [List.append_assoc, List.cons_append] at hjoined
      exact hjoined
  | @close r ts _ hr h _ =>
      cases hn
      have hsum := hus _ ts (hvs.group hl hr) h
      rw [List.append_assoc, List.cons_append, List.singleton_append] at hsum
      exact hsum

/-- One token more can still be completed. -/
theorem Frontier.Completes.step {f g : Frontier} {us : List Token} {t : Token}
    (h : f.Completes us) (hstep : f.step t.kind = some g) : g.Completes (us ++ [t]) := by
  cases f with
  | operand depth =>
      obtain ⟨ht, rfl⟩ | ⟨ht, rfl⟩ | ⟨ht, rfl⟩ := step_operand_eq_some hstep
      · intro ts hts
        rw [List.append_assoc]
        exact h [t] ts (isSum_of_unary (.number ht)) hts
      · intro vs ts hvs hts
        rw [List.append_assoc]
        exact h (t :: vs) ts (hvs.negate ht) hts
      · intro vs ts hvs hts
        rw [List.append_assoc, List.singleton_append]
        exact Closing.group h ht hvs hts
  | operator depth =>
      obtain ⟨ht, n, rfl, rfl⟩ | ⟨ht, rfl, rfl⟩ | ⟨op, ht, rfl⟩ := step_operator_eq_some hstep
      · intro ts hts
        rw [List.append_assoc]
        exact h (t :: ts) (.close ht hts)
      · have hsum := h [] .done
        rw [List.append_nil] at hsum
        exact ⟨us, t, hsum, ht, rfl⟩
      · intro vs ts hvs hts
        rw [List.append_assoc]
        exact h (t :: (vs ++ ts)) (.operator ht hvs hts)
  | closed => cases hstep

theorem Frontier.Completes.run {f g : Frontier} {us vs : List Token} (h : f.Completes us)
    (hrun : f.run vs = some g) : g.Completes (us ++ vs) := by
  induction vs generalizing f us with
  | nil =>
      cases hrun
      rw [List.append_nil]
      exact h
  | cons t vs ih =>
      obtain ⟨f', hstep, hrest⟩ := Option.bind_eq_some_iff.mp hrun
      have hcompletes := ih (h.step hstep) hrest
      rw [List.append_assoc] at hcompletes
      exact hcompletes

theorem completes_start : start.Completes [] := by
  intro vs ts hvs hts
  generalize hn : 0 = n at hts
  induction hts generalizing vs with
  | done =>
      rw [List.append_nil]
      exact hvs
  | operator ht hvs' _ ih =>
      have hjoined := ih _ (hvs.join ht hvs') hn
      rw [List.append_assoc] at hjoined
      exact hjoined
  | close _ _ _ => cases hn

/-! ## Viable tokens -/

/-- Some token of a given kind. -/
def sample (kind : Kind) : Token := ⟨kind, 0, 0, 0, ""⟩

theorem closing_replicate (depth : Nat) :
    Closing depth (List.replicate depth (sample .rightParen)) := by
  induction depth with
  | zero => exact .done
  | succ depth ih => exact .close rfl ih

theorem IsSum.sentence {ts : List Token} (h : IsSum ts) : Sentence (ts ++ [sample .eof]) :=
  ⟨ts, sample .eof, h, rfl, rfl⟩

theorem Frontier.Completes.viable {f : Frontier} {us : List Token} (h : f.Completes us) :
    Viable us := by
  cases f with
  | operand depth =>
      have hsum := h [sample .number] _ (isSum_of_unary (.number rfl)) (closing_replicate depth)
      have hsentence := hsum.sentence
      rw [List.append_assoc] at hsentence
      exact ⟨_, hsentence⟩
  | operator depth =>
      have hsentence := (h _ (closing_replicate depth)).sentence
      rw [List.append_assoc] at hsentence
      exact ⟨_, hsentence⟩
  | closed => exact ⟨[], by rw [List.append_nil]; exact h⟩

/-- What begins a sentence is what has a frontier. -/
theorem viable_iff {us : List Token} : Viable us ↔ ∃ f, start.run us = some f := by
  constructor
  · rintro ⟨more, ts, last, ⟨e, he⟩, hlast, heq⟩
    have hrun : start.run (us ++ more) = some closed := by
      rw [heq, start, run_of_append (he.run 0), Frontier.run, hlast]
      rfl
    rw [run_append] at hrun
    obtain ⟨f, hf, _⟩ := Option.bind_eq_some_iff.mp hrun
    exact ⟨f, hf⟩
  · rintro ⟨f, hf⟩
    exact (completes_start.run hf).viable

instance (us : List Token) : Decidable (Viable us) :=
  decidable_of_iff ((start.run us).isSome = true) (by rw [viable_iff, Option.isSome_iff_exists])

theorem viable_append_singleton_iff {us : List Token} {t : Token} :
    Viable (us ++ [t]) ↔ ∃ f g, start.run us = some f ∧ f.step t.kind = some g := by
  rw [viable_iff]
  constructor
  · rintro ⟨g, hg⟩
    rw [run_append] at hg
    obtain ⟨f, hf, hlast⟩ := Option.bind_eq_some_iff.mp hg
    obtain ⟨g', hstep, _⟩ := Option.bind_eq_some_iff.mp hlast
    exact ⟨f, g', hf, hstep⟩
  · rintro ⟨f, g, hf, hstep⟩
    rw [run_of_append hf, run_cons _ hstep]
    exact ⟨g, rfl⟩

theorem admits_iff {us : List Token} {k : Kind} :
    Admits us k ↔ ∃ f g, start.run us = some f ∧ f.step k = some g := by
  constructor
  · rintro ⟨t, rfl, ht⟩
    exact viable_append_singleton_iff.mp ht
  · intro h
    exact ⟨sample k, rfl, viable_append_singleton_iff.mpr h⟩

/-! ## Where tokens stop being viable -/

theorem viable_nil : Viable [] := viable_iff.mpr ⟨start, rfl⟩

theorem Misfit.viable {ts : List Token} {k : Nat} (h : Misfit ts k) : Viable (ts.take k) := by
  cases k with
  | zero => exact viable_nil
  | succ k => exact h.least k (Nat.lt_succ_self k)

/-- At a misfit the tokens before have a frontier and the token there cannot come next. -/
theorem Misfit.stuck {ts : List Token} {k : Nat} {t : Token} (h : Misfit ts k)
    (ht : ts[k]? = some t) : ∃ f, start.run (ts.take k) = some f ∧ f.step t.kind = none := by
  obtain ⟨f, hf⟩ := viable_iff.mp h.viable
  refine ⟨f, hf, ?_⟩
  cases hstep : f.step t.kind with
  | none => rfl
  | some g =>
      have hbroken := h.broken
      rw [List.take_add_one, ht] at hbroken
      exact absurd (viable_append_singleton_iff.mpr ⟨f, g, hf, hstep⟩) hbroken

/-- Tokens without a misfit have a frontier. -/
theorem run_of_no_misfit {ts : List Token} (h : ∀ k, ¬Misfit ts k) :
    ∃ f, start.run ts = some f := by
  have hviable : ∀ j, j < ts.length → Viable (ts.take (j + 1)) := by
    intro j
    induction j using Nat.strongRecOn with
    | ind j ih =>
        intro hj
        refine Classical.byContradiction fun hbroken => ?_
        exact h j ⟨hj, hbroken, fun i hi => ih i hi (Nat.lt_trans hi hj)⟩
  cases hlen : ts.length with
  | zero =>
      rw [List.eq_nil_of_length_eq_zero hlen]
      exact ⟨start, rfl⟩
  | succ n =>
      have hall := hviable n (by omega)
      rw [← hlen, List.take_length] at hall
      exact viable_iff.mp hall

/-! ## How many parentheses are open -/

theorem Frontier.depth_step {f g : Frontier} {k : Kind} (h : f.step k = some g) :
    f.depth + (if k = .leftParen then 1 else 0) =
      g.depth + (if k = .rightParen then 1 else 0) := by
  cases f with
  | operand depth =>
      obtain ⟨rfl, rfl⟩ | ⟨rfl, rfl⟩ | ⟨rfl, rfl⟩ := step_operand_eq_some h <;> rfl
  | operator depth =>
      obtain ⟨rfl, n, rfl, rfl⟩ | ⟨rfl, rfl, rfl⟩ | ⟨op, rfl, rfl⟩ := step_operator_eq_some h
      · rfl
      · rfl
      · cases op <;> rfl
  | closed => cases h

/-- How many parentheses are open can be told by counting. -/
theorem Frontier.depth_run {f g : Frontier} {ts : List Token} (h : f.run ts = some g) :
    f.depth + ts.countP (·.kind = .leftParen) = g.depth + ts.countP (·.kind = .rightParen) := by
  induction ts generalizing f with
  | nil =>
      cases h
      rfl
  | cons t ts ih =>
      obtain ⟨f', hstep, hrest⟩ := Option.bind_eq_some_iff.mp h
      have hfirst := depth_step hstep
      have hcount := ih hrest
      simp only [List.countP_cons, decide_eq_true_eq]
      omega

end Reckon.Expr
