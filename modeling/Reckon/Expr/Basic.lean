/-
Expressions as trees, and what they mean.

A tree is what a source says once its tokens are grouped: numbers, a minus sign before an
operand, parentheses and the four operators.  Each node keeps the line that its
instruction is charged to.  Beside the value of a tree stand the code that computes it and
two measures: how deep its operands are nested, and how much room on a stack it needs.
-/
import Reckon.Chunk.Basic
import Reckon.Decimal.Reading
import Reckon.Precedence
import Reckon.Token.Basic

namespace Reckon

/-- An expression. -/
inductive Expr where
  | number (literal : Token)
  | negate (line : Nat) (operand : Expr)
  | group (inner : Expr)
  | binary (op : Operator) (line : Nat) (left right : Expr)
deriving DecidableEq, Repr

namespace Expr

/-- The value of an expression. -/
def eval : Expr → Float
  | number t => Decimal.read t.lexeme
  | negate _ e => -e.eval
  | group e => e.eval
  | binary op _ a b => op.apply a.eval b.eval

/-- The number tokens of an expression, from left to right. -/
def literals : Expr → List Token
  | number t => [t]
  | negate _ e => e.literals
  | group e => e.literals
  | binary _ _ a b => a.literals ++ b.literals

/-- The values of the number tokens, from left to right. -/
def constants (e : Expr) : List Float :=
  e.literals.map fun t => Decimal.read t.lexeme

/-! ## Measures -/

/-- How many operands are open at once while the expression is read.  The left operand of an
operator is closed before the right one is begun. -/
def nesting : Expr → Nat
  | number _ => 1
  | negate _ e => 1 + e.nesting
  | group e => 1 + e.nesting
  | binary _ _ a b => max a.nesting (1 + b.nesting)

/-- How many places on a stack the expression needs.  The value of the left operand waits
there while the right one is computed. -/
def slots : Expr → Nat
  | number _ => 1
  | negate _ e => e.slots
  | group e => e.slots
  | binary _ _ a b => max a.slots (1 + b.slots)

/-- The line of the first number that finds no place on a stack with `room` places left. -/
def overflowLine? (room : Nat) : Expr → Option Nat
  | number t => if room = 0 then some t.line else none
  | negate _ e => e.overflowLine? room
  | group e => e.overflowLine? room
  | binary _ _ a b => (a.overflowLine? room).or (b.overflowLine? (room - 1))

/-- Whatever waits on the stack is the left operand of an operator whose right operand is
open. -/
theorem slots_le_nesting (e : Expr) : e.slots ≤ e.nesting := by
  induction e with
  | number _ => exact Nat.le_refl 1
  | negate _ e ih => exact Nat.le_trans ih (Nat.le_add_left ..)
  | group e ih => exact Nat.le_trans ih (Nat.le_add_left ..)
  | binary _ _ a b iha ihb =>
    simp only [slots, nesting]
    omega

theorem slots_pos (e : Expr) : 0 < e.slots := by
  induction e with
  | number _ => exact Nat.zero_lt_one
  | negate _ _ ih => exact ih
  | group _ ih => exact ih
  | binary _ _ a b iha _ => exact Nat.lt_of_lt_of_le iha (Nat.le_max_left ..)

/-- A number finds no place exactly when the expression needs more room than there is. -/
theorem overflowLine?_eq_none_iff (e : Expr) (room : Nat) :
    e.overflowLine? room = none ↔ e.slots ≤ room := by
  induction e generalizing room with
  | number t =>
    simp only [overflowLine?, slots, ite_eq_right_iff, reduceCtorEq, imp_false]
    omega
  | negate _ e ih => exact ih room
  | group e ih => exact ih room
  | binary _ _ a b iha ihb =>
    have ha := a.slots_pos
    have hb := b.slots_pos
    simp only [overflowLine?, slots, Option.or_eq_none_iff, iha, ihb]
    omega

/-! ## Code -/

/-- The code that leaves the value of the expression on the stack: operands first, then the
instruction.  Numbers refer to the pool from place `first` on. -/
def code (first : Nat) : Expr → List CodeByte
  | number t => [⟨Opcode.constant.toByte, t.line⟩, ⟨UInt8.ofNat first, t.line⟩]
  | negate line e => e.code first ++ [⟨Opcode.negate.toByte, line⟩]
  | group e => e.code first
  | binary op line a b =>
    a.code first ++ b.code (first + a.literals.length) ++ [⟨op.opcode.toByte, line⟩]

/-- The code of a whole program, which returns the value of the expression. -/
def program (e : Expr) (endLine : Nat) : List CodeByte :=
  e.code 0 ++ [⟨Opcode.ret.toByte, endLine⟩]

end Expr

end Reckon
