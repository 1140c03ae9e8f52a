/-
Parsing expressions by precedence climbing.

An operand is a number, an expression in parentheses or a minus sign before an operand.
After it come operators, as long as they bind at least as tightly as asked for; the right
operand of an operator is parsed one level tighter, so that operators of one level group
to the left.  Every operand that is begun uses up one unit of a budget for as long as it
is open; without budget nothing is read.
-/
import Reckon.Compile.State

namespace Reckon.Compile.State

/-- A later state, with at most as many tokens ahead. -/
abbrev Later (s : State) : Type := { t : State // t.ahead ≤ s.ahead }

/-- What is later than a later state is later. -/
def Later.trans {s t : State} (r : Later t) (h : t.ahead ≤ s.ahead) : Later s :=
  ⟨r.val, Nat.le_trans r.property h⟩

/-- Parses the operators that bind at least as tightly as `p`, each with its right operand. -/
def operators (operand : Precedence → (s : State) → Later s) (p : Precedence) (s : State) :
    Later s :=
  match h : Operator.ofKind? s.current.kind with
  | none => ⟨s, Nat.le_refl _⟩
  | some op =>
    if p.rank ≤ op.precedence.rank then
      let right := operand op.precedence.next s.advance
      have hless : (right.val.writeOp op.opcode s.current.line).ahead < s.ahead := by
        rw [ahead_writeOp]
        refine Nat.lt_of_le_of_lt right.property (ahead_advance_lt ?_)
        intro heof
        rw [heof] at h
        cases h
      (operators operand p (right.val.writeOp op.opcode s.current.line)).trans
        (Nat.le_of_lt hless)
    else ⟨s, Nat.le_refl _⟩
termination_by s.ahead
decreasing_by exact hless

/-- Parses an operand and the operators after it that bind at least as tightly as `p`. -/
def climb : (budget : Nat) → Precedence → (s : State) → Later s
  | 0, _, s =>
    ⟨s.report s.current Complaint.nestedTooDeeply.message, Nat.le_of_eq (ahead_report ..)⟩
  | budget + 1, p, s =>
    let begun := s.advance
    have hbegun : begun.ahead ≤ s.ahead := ahead_advance_le_ahead s
    match begun.previous.kind with
    | .number =>
      (operators (climb budget) p begun.writeNumber).trans
        (Nat.le_trans (Nat.le_of_eq (ahead_writeNumber begun)) hbegun)
    | .leftParen =>
      let inner := climb budget .assignment begun
      (operators (climb budget) p (inner.val.consume .rightParen .expectRightParen)).trans
        (Nat.le_trans (ahead_consume_le ..) (Nat.le_trans inner.property hbegun))
    | .minus =>
      let inner := climb budget .unary begun
      (operators (climb budget) p (inner.val.writeOp .negate begun.previous.line)).trans
        (Nat.le_trans (Nat.le_of_eq (ahead_writeOp ..)) (Nat.le_trans inner.property hbegun))
    | _ =>
      ⟨begun.report begun.previous Complaint.expectExpression.message,
        Nat.le_trans (Nat.le_of_eq (ahead_report ..)) hbegun⟩

/-- Parses an expression of precedence at least `p` with operands nested at most `budget`
deep. -/
def parse (s : State) (budget : Nat) (p : Precedence) : State :=
  (climb budget p s).val

/-- Parses the operators after an operand. -/
def parseOperators (s : State) (budget : Nat) (p : Precedence) : State :=
  (operators (climb budget) p s).val

/-! ## The steps of parsing -/

/-- Without budget an operand is not even begun. -/
theorem parse_zero (s : State) (p : Precedence) :
    s.parse 0 p = s.report s.current Complaint.nestedTooDeeply.message := rfl

/-- An operand decides by its first token; then come the operators. -/
theorem parse_succ (s : State) (budget : Nat) (p : Precedence) :
    s.parse (budget + 1) p =
      match s.advance.previous.kind with
      | .number => s.advance.writeNumber.parseOperators budget p
      | .leftParen =>
        ((s.advance.parse budget .assignment).consume .rightParen
          .expectRightParen).parseOperators budget p
      | .minus =>
        ((s.advance.parse budget .unary).writeOp .negate
          s.advance.previous.line).parseOperators budget p
      | _ => s.advance.report s.advance.previous Complaint.expectExpression.message := by
  simp only [parse, climb]
  split <;> rfl

/-- Operators are parsed one by one as long as they bind tightly enough. -/
theorem parseOperators_eq (s : State) (budget : Nat) (p : Precedence) :
    s.parseOperators budget p =
      match Operator.ofKind? s.current.kind with
      | none => s
      | some op =>
        if p.rank ≤ op.precedence.rank then
          ((s.advance.parse budget op.precedence.next).writeOp op.opcode
            s.current.line).parseOperators budget p
        else s := by
  conv => lhs; unfold parseOperators; rw [operators]
  split
  · next h => simp [h]
  · next op h => simp only [h]; split <;> rfl

end Reckon.Compile.State
