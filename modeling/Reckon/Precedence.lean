/-
Precedence: how tightly operators bind.

The scale has room for the operators of a whole language.  Expressions use two of its
levels for binary operators, and one for the minus sign before an operand.
-/
import Reckon.Opcode
import Reckon.Token.Kind

namespace Reckon

/-- How tightly an operator binds, the loosest first. -/
inductive Precedence where
  | none
  | assignment
  | or
  | and
  | equality
  | comparison
  | term
  | factor
  | unary
  | call
  | primary
deriving DecidableEq, Repr

namespace Precedence

/-- All levels, the loosest first. -/
def all : List Precedence :=
  [none, assignment, or, and, equality, comparison, term, factor, unary, call, primary]

/-- The place of a level on the scale. -/
def rank : Precedence → Nat
  | none => 0
  | assignment => 1
  | or => 2
  | and => 3
  | equality => 4
  | comparison => 5
  | term => 6
  | factor => 7
  | unary => 8
  | call => 9
  | primary => 10

/-- The next tighter level; there is none above the tightest. -/
def next : Precedence → Precedence
  | none => assignment
  | assignment => or
  | or => and
  | and => equality
  | equality => comparison
  | comparison => term
  | term => factor
  | factor => unary
  | unary => call
  | call => primary
  | primary => primary

/-- The level's name as a variant of its type. -/
def variant : Precedence → String
  | none => "None"
  | assignment => "Assignment"
  | or => "Or"
  | and => "And"
  | equality => "Equality"
  | comparison => "Comparison"
  | term => "Term"
  | factor => "Factor"
  | unary => "Unary"
  | call => "Call"
  | primary => "Primary"

instance : Ord Precedence := ⟨fun a b => compare a.rank b.rank⟩

end Precedence

/-- A binary operator. -/
inductive Operator where
  | add
  | subtract
  | multiply
  | divide
deriving DecidableEq, Repr

namespace Operator

/-- The operator that a token stands for between two operands. -/
def ofKind? : Kind → Option Operator
  | .plus => some add
  | .minus => some subtract
  | .star => some multiply
  | .slash => some divide
  | _ => none

/-- How tightly an operator binds. -/
def precedence : Operator → Precedence
  | add | subtract => .term
  | multiply | divide => .factor

/-- The instruction that applies an operator. -/
def opcode : Operator → Opcode
  | add => .add
  | subtract => .subtract
  | multiply => .multiply
  | divide => .divide

/-- The operator's value on two numbers. -/
def apply : Operator → Float → Float → Float
  | add, a, b => a + b
  | subtract, a, b => a - b
  | multiply, a, b => a * b
  | divide, a, b => a / b

end Operator

end Reckon
