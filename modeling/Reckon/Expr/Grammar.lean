/-
The grammar of expressions, with three kinds of phrases:

    sum      =  product (('+' | '-') product)*
    product  =  unary (('*' | '/') unary)*
    unary    =  '-' unary  |  NUMBER  |  '(' sum ')'

Operators of one kind of phrase group to the left.  The grammar says which tokens spell
which tree, and nothing about how to find the tree.
-/
import Reckon.Expr.Basic

namespace Reckon

/-- The token that stands for an operator. -/
def Operator.kind : Operator → Kind
  | add => .plus
  | subtract => .minus
  | multiply => .star
  | divide => .slash

namespace Expr

/-- The kinds of phrases, the loosest first. -/
inductive Phrase where
  | sum
  | product
  | unary
deriving DecidableEq, Repr

/-- `Spells p ts e`: the tokens `ts` are a phrase of the kind `p` with the tree `e`. -/
inductive Spells : Phrase → List Token → Expr → Prop
  | number {t : Token} (ht : t.kind = .number) : Spells .unary [t] (.number t)
  | negate {t : Token} {ts : List Token} {e : Expr} (ht : t.kind = .minus)
      (he : Spells .unary ts e) : Spells .unary (t :: ts) (.negate t.line e)
  | group {l r : Token} {ts : List Token} {e : Expr} (hl : l.kind = .leftParen)
      (he : Spells .sum ts e) (hr : r.kind = .rightParen) :
      Spells .unary (l :: ts ++ [r]) (.group e)
  | ofUnary {ts : List Token} {e : Expr} (he : Spells .unary ts e) : Spells .product ts e
  | product {op : Operator} {t : Token} {ts us : List Token} {a b : Expr}
      (hop : op = .multiply ∨ op = .divide) (ha : Spells .product ts a)
      (ht : t.kind = op.kind) (hb : Spells .unary us b) :
      Spells .product (ts ++ t :: us) (.binary op t.line a b)
  | ofProduct {ts : List Token} {e : Expr} (he : Spells .product ts e) : Spells .sum ts e
  | sum {op : Operator} {t : Token} {ts us : List Token} {a b : Expr}
      (hop : op = .add ∨ op = .subtract) (ha : Spells .sum ts a)
      (ht : t.kind = op.kind) (hb : Spells .product us b) :
      Spells .sum (ts ++ t :: us) (.binary op t.line a b)

/-- The number tokens of a phrase are the literals of its tree. -/
theorem Spells.literals_eq {p : Phrase} {ts : List Token} {e : Expr} (h : Spells p ts e) :
    ts.filter (fun t => t.kind = .number) = e.literals := by
  induction h with
  | number ht => simp [literals, ht]
  | negate ht _ ih => simpa [literals, ht] using ih
  | group hl _ hr ih => simpa [literals, hl, hr] using ih
  | ofUnary _ ih => exact ih
  | ofProduct _ ih => exact ih
  | product hop _ ht _ iha ihb =>
    rcases hop with rfl | rfl <;> simp [literals, Operator.kind, ht, iha, ihb]
  | sum hop _ ht _ iha ihb =>
    rcases hop with rfl | rfl <;> simp [literals, Operator.kind, ht, iha, ihb]

/-- An expression has at least one token. -/
theorem Spells.ne_nil {p : Phrase} {ts : List Token} {e : Expr} (h : Spells p ts e) :
    ts ≠ [] := by
  induction h with
  | number _ => exact List.cons_ne_nil _ _
  | negate _ _ _ => exact List.cons_ne_nil _ _
  | group _ _ _ _ => exact List.cons_ne_nil _ _
  | ofUnary _ ih => exact ih
  | ofProduct _ ih => exact ih
  | product _ _ _ _ _ _ => simp
  | sum _ _ _ _ _ _ => simp

end Expr

end Reckon
