/-
# Running compiled code

The code of an expression leaves the value of the expression on the stack, or stops at
the first number that finds the stack full (`runFrom_code`).  The statement is about code
that stands anywhere in a chunk and about any stack, since the operands of an operator
are run in the middle of a chunk and above the values that wait for them.

For a whole source this gives the exact condition under which a run has a value
(`runChunk_compiled`): the expression must fit on the stack.
-/
import Reckon.Machine.Interpreter
import Reckon.Proofs.Compile.Language
import Reckon.Proofs.Machine.Path

namespace Reckon

open Compile (maxConstants)
open Reckon.Expr (Spells)

/-! ## Numbers and the stack they find -/

namespace Expr

/-- The numbers of an expression from left to right, each with the number of values that are on
the stack when it is pushed; `below` values are there from the start. -/
def pushes (below : Nat) : Expr → List (Token × Nat)
  | number t => [(t, below)]
  | negate _ e => e.pushes below
  | group e => e.pushes below
  | binary _ _ a b => a.pushes below ++ b.pushes (below + 1)

theorem map_fst_pushes (e : Expr) (below : Nat) :
    (e.pushes below).map Prod.fst = e.literals := by
  induction e generalizing below with
  | number t => rfl
  | negate _ e ih => exact ih below
  | group e ih => exact ih below
  | binary _ _ a b iha ihb =>
      rw [pushes, List.map_append, iha, ihb]
      rfl

theorem overflowLine?_eq_find? (e : Expr) {limit below : Nat} (h : below ≤ limit) :
    e.overflowLine? (limit - below) =
      ((e.pushes below).find? fun p => p.2 = limit).map fun p => p.1.line := by
  induction e generalizing below with
  | number t =>
      by_cases hfull : below = limit
      · simp [overflowLine?, pushes, hfull]
      · have hroom : limit - below ≠ 0 := by omega
        simp [overflowLine?, pushes, hfull, hroom]
  | negate _ e ih => exact ih h
  | group e ih => exact ih h
  | binary _ _ a b iha ihb =>
      rw [overflowLine?, pushes, List.find?_append, iha h]
      cases hfind : (a.pushes below).find? fun p => p.2 = limit with
      | some p => rfl
      | none =>
          -- the left operand found a place, so one more value still fits
          have hslots : a.slots ≤ limit - below := by
            rw [← overflowLine?_eq_none_iff, iha h, hfind]
            rfl
          have hpos := a.slots_pos
          rw [Nat.sub_sub, ihb (by omega)]
          rfl


end Expr

/-! ## Code in its place -/

theorem append_isPrefix_drop {α : Type} {l xs ys : List α} {n : Nat}
    (h : xs ++ ys <+: l.drop n) : xs <+: l.drop n ∧ ys <+: l.drop (n + xs.length) := by
  obtain ⟨rest, hrest⟩ := h
  refine ⟨⟨ys ++ rest, by rw [← List.append_assoc, hrest]⟩, ⟨rest, ?_⟩⟩
  rw [← List.drop_drop, ← hrest, List.append_assoc, List.drop_left]

/-- `c.Holds offset first e`: the code of `e` stands in `c` from `offset` on, its constants are
in the pool from place `first` on, and a byte can number them all. -/
structure Chunk.Holds (c : Chunk) (offset first : Nat) (e : Expr) : Prop where
  code : e.code first <+: c.code.toList.drop offset
  constants : e.constants <+: c.constants.values.toList.drop first
  numbered : first + e.literals.length ≤ maxConstants

namespace Chunk.Holds

variable {c : Chunk} {offset first : Nat}

theorem negate {line : Nat} {e : Expr} (h : c.Holds offset first (.negate line e)) :
    c.Holds offset first e where
  code := (append_isPrefix_drop h.code).1
  constants := h.constants
  numbered := h.numbered

theorem left {op : Operator} {line : Nat} {a b : Expr}
    (h : c.Holds offset first (.binary op line a b)) : c.Holds offset first a where
  code := (append_isPrefix_drop (append_isPrefix_drop h.code).1).1
  constants := by
    have hconstants := h.constants
    rw [Expr.constants, Expr.literals, List.map_append] at hconstants
    exact (append_isPrefix_drop hconstants).1
  numbered := by
    have hnumbered := h.numbered
    rw [Expr.literals, List.length_append] at hnumbered
    omega

theorem right {op : Operator} {line : Nat} {a b : Expr}
    (h : c.Holds offset first (.binary op line a b)) :
    c.Holds (offset + (a.code first).length) (first + a.literals.length) b where
  code := (append_isPrefix_drop (append_isPrefix_drop h.code).1).2
  constants := by
    have hconstants := h.constants
    rw [Expr.constants, Expr.literals, List.map_append] at hconstants
    have hright := (append_isPrefix_drop hconstants).2
    rw [List.length_map] at hright
    exact hright
  numbered := by
    have hnumbered := h.numbered
    rw [Expr.literals, List.length_append] at hnumbered
    omega

end Chunk.Holds

/-! ## Single instructions -/

namespace Machine

@[simp]
theorem negate_cons (limit : Nat) (value : Float) (stack : List Float) :
    negate limit (value :: stack) = push limit (-value) stack := rfl

@[simp]
theorem combine_cons (limit : Nat) (op : Operator) (a b : Float) (stack : List Float) :
    combine limit op (b :: a :: stack) = push limit (op.apply a b) stack := rfl

theorem step_opcode (limit : Nat) (c : Chunk) (op : Operator) (next : Nat)
    (stack : List Float) :
    step limit c op.opcode next stack = (combine limit op stack).map (Move.go next) := by
  cases op with
  | add => rfl
  | subtract => rfl
  | multiply => rfl
  | divide => rfl

variable {o : Options} {c : Chunk} {offset line : Nat} {stack : List Float}

theorem code_of_isPrefix {b : CodeByte} {rest : List CodeByte}
    (h : b :: rest <+: c.code.toList.drop offset) : c.code[offset]? = some b := by
  obtain ⟨below, hbelow⟩ := h
  rw [← Array.getElem?_toList, ← Nat.add_zero offset, ← List.getElem?_drop, ← hbelow]
  rfl

/-- What an instruction does to the result of a run. -/
theorem result_runFrom {op : Opcode} (h : c.code[offset]? = some ⟨op.toByte, line⟩) :
    (runFrom o c offset stack).result.result =
      match step o.stackMax c op (offset + 1) stack with
      | .error fault => .error ⟨fault, line⟩
      | .ok (.halt value left) => .ok (value, left)
      | .ok (.go next stack') => (runFrom o c next stack').result.result := by
  have hbyte : c.byteAt? offset = some op.toByte := congrArg (Option.map CodeByte.byte) h
  have hline : c.lineAt? offset = some line := congrArg (Option.map CodeByte.line) h
  rw [runFrom_of_opcode hbyte (Opcode.ofByte?_toByte op)]
  cases step o.stackMax c op (offset + 1) stack with
  | error fault => simp only [blamedLine, hline]
  | ok move =>
      cases move with
      | go next stack' => rfl
      | halt value left => rfl

theorem runFrom_number {t : Token} {first : Nat} (h : c.Holds offset first (.number t)) :
    (runFrom o c offset stack).result.result =
      if o.stackMax ≤ stack.length then .error ⟨.stackOverflow o.stackMax, t.line⟩
      else (runFrom o c (offset + 2) (Decimal.read t.lexeme :: stack)).result.result := by
  have hcode : [⟨Opcode.constant.toByte, t.line⟩] ++ [⟨UInt8.ofNat first, t.line⟩] <+:
      c.code.toList.drop offset := h.code
  have hoperand : c.byteAt? (offset + 1) = some (UInt8.ofNat first) :=
    congrArg (Option.map CodeByte.byte) (code_of_isPrefix (append_isPrefix_drop hcode).2)
  have hindex : (UInt8.ofNat first).toNat = first := by
    have hnumbered : first + 1 ≤ 256 := h.numbered
    rw [UInt8.toNat_ofNat']
    omega
  have hconstant : c.constantAt? first = some (Decimal.read t.lexeme) := by
    obtain ⟨below, hbelow⟩ := h.constants
    show c.constants.values[first]? = _
    rw [← Array.getElem?_toList, ← Nat.add_zero first, ← List.getElem?_drop, ← hbelow]
    rfl
  rw [result_runFrom (code_of_isPrefix h.code)]
  simp only [step, load, hoperand, hindex, hconstant]
  by_cases hfull : o.stackMax ≤ stack.length
  · rw [push_of_le hfull, if_pos hfull]
    rfl
  · rw [push_of_lt (Nat.lt_of_not_le hfull), if_neg hfull]
    rfl

theorem runFrom_negate {value : Float} {rest : List CodeByte}
    (h : ⟨Opcode.negate.toByte, line⟩ :: rest <+: c.code.toList.drop offset)
    (hroom : stack.length < o.stackMax) :
    (runFrom o c offset (value :: stack)).result.result =
      (runFrom o c (offset + 1) (-value :: stack)).result.result := by
  rw [result_runFrom (code_of_isPrefix h)]
  simp only [step, negate_cons, push_of_lt hroom]
  rfl

theorem runFrom_operator {op : Operator} {a b : Float} {rest : List CodeByte}
    (h : ⟨op.opcode.toByte, line⟩ :: rest <+: c.code.toList.drop offset)
    (hroom : stack.length < o.stackMax) :
    (runFrom o c offset (b :: a :: stack)).result.result =
      (runFrom o c (offset + 1) (op.apply a b :: stack)).result.result := by
  rw [result_runFrom (code_of_isPrefix h)]
  simp only [step_opcode, combine_cons, push_of_lt hroom]
  rfl

theorem runFrom_ret {value : Float} {rest : List CodeByte}
    (h : ⟨Opcode.ret.toByte, line⟩ :: rest <+: c.code.toList.drop offset) :
    (runFrom o c offset (value :: stack)).result.result = .ok (value, stack) := by
  rw [result_runFrom (code_of_isPrefix h)]
  rfl

/-! ## Whole expressions -/

/-- The code of an expression ends with the value of the expression on the stack, unless one of
its numbers finds no place; the run then stops at the first such number. -/
theorem runFrom_code (o : Options) {c : Chunk} (e : Expr) {offset first : Nat}
    (stack : List Float) (h : c.Holds offset first e) :
    (runFrom o c offset stack).result.result =
      match e.overflowLine? (o.stackMax - stack.length) with
      | some line => .error ⟨.stackOverflow o.stackMax, line⟩
      | none => (runFrom o c (offset + (e.code first).length) (e.eval :: stack)).result.result := by
  induction e generalizing offset first stack with
  | number t =>
      rw [runFrom_number h, Expr.overflowLine?]
      by_cases hfull : o.stackMax ≤ stack.length
      · rw [if_pos hfull, if_pos (Nat.sub_eq_zero_of_le hfull)]
      · rw [if_neg hfull, if_neg (by omega)]
        rfl
  | negate line e ih =>
      rw [ih _ h.negate, Expr.overflowLine?]
      cases hover : e.overflowLine? (o.stackMax - stack.length) with
      | some line => rfl
      | none =>
          have hfits := (e.overflowLine?_eq_none_iff _).mp hover
          have hpos := e.slots_pos
          simp only
          rw [runFrom_negate (append_isPrefix_drop h.code).2 (by omega), Expr.code,
            List.length_append, Nat.add_assoc]
          rfl
  | group e ih => exact ih _ ⟨h.code, h.constants, h.numbered⟩
  | binary op line a b iha ihb =>
      rw [iha _ h.left, Expr.overflowLine?]
      cases hover : a.overflowLine? (o.stackMax - stack.length) with
      | some line => rfl
      | none =>
          have hfits := (a.overflowLine?_eq_none_iff _).mp hover
          have hpos := a.slots_pos
          simp only [Option.none_or]
          rw [ihb _ h.right, List.length_cons, ← Nat.sub_sub]
          cases b.overflowLine? (o.stackMax - stack.length - 1) with
          | some line => rfl
          | none =>
              have hop := (append_isPrefix_drop h.code).2
              rw [List.length_append, ← Nat.add_assoc] at hop
              simp only
              rw [runFrom_operator hop (by omega), Expr.code, List.length_append,
                List.length_append, ← Nat.add_assoc, ← Nat.add_assoc]
              rfl

/-! ## Whole sources -/

theorem holds_of_compile {o : Options} {source : String} {c : Chunk} {e : Expr}
    (hc : (compile o source).result = .ok c)
    (he : Spells .sum (TokenStream.ofSource source).tokens e) : c.Holds 0 0 e := by
  obtain ⟨_, hroom, hcode, hconstants⟩ := compile_sound hc he
  refine ⟨?_, ⟨[], ?_⟩, ?_⟩
  · rw [List.drop_zero, hcode]
    exact List.prefix_append ..
  · rw [List.drop_zero, hconstants, List.append_nil]
  · rw [Nat.zero_add]
    exact hroom

/-- A compiled source is run to its value, or to the first number that finds the stack full; the
stack is empty after both. -/
theorem execute_compiled (o' : Options) {o : Options} {source : String} {c : Chunk} {e : Expr}
    (hc : (compile o source).result = .ok c)
    (he : Spells .sum (TokenStream.ofSource source).tokens e) :
    (execute o' c).result.result =
        (match e.overflowLine? o'.stackMax with
        | some line => .error ⟨.stackOverflow o'.stackMax, line⟩
        | none => .ok e.eval) ∧
      (execute o' c).result.stack = [] := by
  obtain ⟨_, _, hcode, _⟩ := compile_sound hc he
  have hrun := runFrom_code o' e [] (holds_of_compile hc he)
  rw [List.length_nil, Nat.sub_zero] at hrun
  unfold execute executeFrom
  cases hover : e.overflowLine? o'.stackMax with
  | some line =>
      rw [hover] at hrun
      simp only [hrun, and_self]
  | none =>
      rw [hover] at hrun
      have hret : [⟨Opcode.ret.toByte, (TokenStream.ofSource source).endLine⟩] <+:
          c.code.toList.drop (0 + (e.code 0).length) :=
        ⟨[], by rw [hcode, Nat.zero_add, Expr.program, List.drop_left, List.append_nil]⟩
      simp only at hrun
      rw [runFrom_ret hret] at hrun
      simp only [hrun, and_self]

end Machine

/-- A compiled source has one tree.  Its run gives the value of the tree exactly when the tree
fits on the stack.  Otherwise it stops with a stack overflow, blamed on the line of the first
number in the source that is to be pushed on a full stack.  The stack is empty after both. -/
theorem runChunk_compiled {o : Options} {source : String} {c : Chunk}
    (hc : (compile o source).result = .ok c) (i : Interpreter) :
    (∃ e, Spells .sum (TokenStream.ofSource source).tokens e) ∧
    ∀ e, Spells .sum (TokenStream.ofSource source).tokens e →
      ((i.runChunk c).1.result = .ok e.eval ↔ e.slots ≤ i.options.stackMax) ∧
      (i.options.stackMax < e.slots →
        ∃ t, (e.pushes 0).find? (fun p => p.2 = i.options.stackMax) =
            some (t, i.options.stackMax) ∧
          (i.runChunk c).1.result =
            .error (.runtime ⟨.stackOverflow i.options.stackMax, t.line⟩)) ∧
      (e.pushes 0).map Prod.fst =
        (TokenStream.ofSource source).tokens.filter (fun t => t.kind = .number) ∧
      (i.runChunk c).2.stack = [] := by
  refine ⟨?_, fun e he => ?_⟩
  · obtain ⟨e, he, _⟩ := Compile.State.finish_sound (compile_eq_ok hc).1
    exact ⟨e, he⟩
  · obtain ⟨hresult, hstack⟩ := Machine.execute_compiled i.options hc he
    have hfind := e.overflowLine?_eq_find? (Nat.zero_le i.options.stackMax)
    have hnone := e.overflowLine?_eq_none_iff i.options.stackMax
    rw [Nat.sub_zero] at hfind
    simp only [Interpreter.runChunk_eq, hresult]
    refine ⟨?_, ?_, ?_, hstack⟩
    · cases hover : e.overflowLine? i.options.stackMax with
      | some line =>
          rw [← hnone, hover]
          constructor <;> intro h <;> cases h
      | none => exact ⟨fun _ => hnone.mp hover, fun _ => rfl⟩
    · intro hslots
      cases hp : (e.pushes 0).find? (fun p => p.2 = i.options.stackMax) with
      | none =>
          rw [hp] at hfind
          exact absurd (hnone.mp hfind) (Nat.not_le.mpr hslots)
      | some p =>
          obtain ⟨t, below⟩ := p
          have hbelow : below = i.options.stackMax := by
            simpa using List.find?_some hp
          rw [hp] at hfind
          refine ⟨t, by rw [hbelow], ?_⟩
          rw [hfind]
          rfl
    · rw [e.map_fst_pushes, he.literals_eq]

theorem runChunk_two_lines :
    ∃ c, (compile {} "1 -\n2").result = .ok c ∧
      ((Interpreter.mk { stackMax := 1 } [7] 3).runChunk c).1.result =
        .error (.runtime ⟨.stackOverflow 1, 2⟩) ∧
      ((Interpreter.mk { stackMax := 1 } [7] 3).runChunk c).2.stack = [] := by
  have he : Spells .sum (TokenStream.ofSource "1 -\n2").tokens
      (.binary .subtract 1 (.number ⟨.number, 0, 1, 1, "1"⟩)
        (.number ⟨.number, 4, 1, 2, "2"⟩)) := by
    have htokens : (TokenStream.ofSource "1 -\n2").tokens =
        [⟨.number, 0, 1, 1, "1"⟩, ⟨.minus, 2, 1, 1, "-"⟩, ⟨.number, 4, 1, 2, "2"⟩] := by
      decide +kernel
    rw [htokens]
    show Spells .sum ([_] ++ _ :: [_]) _
    exact .sum (.inr rfl) (.ofProduct (.ofUnary (.number rfl))) rfl
      (.ofUnary (.number rfl))
  obtain ⟨c, hc⟩ := compile_complete (o := {}) he (by decide) (by decide)
  obtain ⟨_, hover, _, hstack⟩ :=
    (runChunk_compiled hc (Interpreter.mk { stackMax := 1 } [7] 3)).2 _ he
  obtain ⟨t, hfind, hresult⟩ := hover (by decide)
  cases hfind
  exact ⟨c, hc, hresult, hstack⟩

end Reckon
