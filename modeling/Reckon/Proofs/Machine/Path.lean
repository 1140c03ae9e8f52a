/-
# The run of a machine, place by place

A run stands at a place: an offset in the code and a stack.  There it fetches a byte and
either goes on at another place (`Goes`) or ends (`Ends`).  Every place has one of the two,
and going on leads further in the code, so that a run is a path with an end, and what it
lets out is what is let out at the places of the path (`exists_path`).

What a single instruction can do is said once (`does_of_step`), and everything that is said
about runs comes from there: where a run goes on, how high the stack can be, and what can be
wrong.  On a stack within the limit only a constant can find the stack full, since every
other instruction takes a value before it pushes one.
-/
import Reckon.Machine.Basic

namespace Reckon

/-- The number of values that an instruction takes off the stack. -/
def Opcode.takes : Opcode → Nat
  | constant => 0
  | ret => 1
  | negate => 1
  | _ => 2

namespace Machine

/-! ## What an instruction can do -/

/-- `Fails limit c next stack op fault`: the instruction `op`, whose operand would stand at
`next`, cannot be carried out on this stack, and `fault` says why. -/
inductive Fails (limit : Nat) (c : Chunk) (next : Nat) (stack : List Float) :
    Opcode → RuntimeFault → Prop
  | missing : c.byteAt? next = none → Fails limit c next stack .constant (.unexpectedEnd next)
  | invalid {index : UInt8} : c.byteAt? next = some index → c.constantAt? index.toNat = none →
      Fails limit c next stack .constant (.invalidConstant index.toNat)
  | overflow : stack.length = limit → Fails limit c next stack .constant (.stackOverflow limit)
  | underflow {op : Opcode} : stack.length < op.takes → Fails limit c next stack op .stackUnderflow

/-- `Does limit c next stack op r`: what can come of the instruction `op`. -/
inductive Does (limit : Nat) (c : Chunk) (next : Nat) (stack : List Float) (op : Opcode) :
    Except RuntimeFault Move → Prop
  | fails {fault : RuntimeFault} : Fails limit c next stack op fault →
      Does limit c next stack op (.error fault)
  | goes {stack' : List Float} : stack'.length ≤ limit →
      (op = .constant → ∃ index, c.byteAt? next = some index) →
      Does limit c next stack op (.ok (.go (next + op.operandSize) stack'))
  | halts {value : Float} {left : List Float} : stack = value :: left →
      Does limit c next stack op (.ok (.halt value left))

section
variable {limit : Nat} {c : Chunk} {next : Nat} {stack : List Float}

theorem push_of_lt (h : stack.length < limit) (value : Float) :
    push limit value stack = .ok (value :: stack) :=
  if_neg (Nat.not_le.mpr h)

theorem push_of_le (h : limit ≤ stack.length) (value : Float) :
    push limit value stack = .error (.stackOverflow limit) :=
  if_pos h

theorem does_load (hroom : stack.length ≤ limit) :
    Does limit c next stack .constant ((load limit c next stack).map (Move.go (next + 1))) := by
  unfold load
  cases hbyte : c.byteAt? next with
  | none => exact .fails (.missing hbyte)
  | some index =>
      cases hvalue : c.constantAt? index.toNat with
      | none =>
          simp only [hvalue]
          exact .fails (.invalid hbyte hvalue)
      | some value =>
          simp only [hvalue]
          by_cases hfull : limit ≤ stack.length
          · rw [push_of_le hfull]
            exact .fails (.overflow (Nat.le_antisymm hroom hfull))
          · have hlt := Nat.lt_of_not_le hfull
            rw [push_of_lt hlt]
            show Does limit c next stack .constant
              (.ok (.go (next + Opcode.constant.operandSize) (value :: stack)))
            exact .goes hlt fun _ => ⟨index, hbyte⟩

-- Full stacks are no case here: something was taken off `stack` to leave `rest`.
theorem does_push {op : Opcode} (hop : op.operandSize = 0) {value : Float} {rest : List Float}
    (hroom : rest.length < limit) :
    Does limit c next stack op ((push limit value rest).map (Move.go next)) := by
  have hgoes : Does limit c next stack op
      (.ok (.go (next + op.operandSize) (value :: rest))) :=
    .goes hroom fun hconstant => by rw [hconstant] at hop; cases hop
  rw [hop] at hgoes
  rw [push_of_lt hroom]
  exact hgoes

theorem does_combine {op : Opcode} (hop : op.operandSize = 0) (htakes : op.takes = 2)
    (operator : Operator) (hroom : stack.length ≤ limit) :
    Does limit c next stack op ((combine limit operator stack).map (Move.go next)) := by
  match stack with
  | [] => exact .fails (.underflow (by rw [htakes]; exact Nat.zero_lt_two))
  | [_] => exact .fails (.underflow (by rw [htakes]; exact Nat.one_lt_two))
  | b :: a :: rest => exact does_push hop (Nat.lt_of_succ_lt hroom)

theorem does_negate (hroom : stack.length ≤ limit) :
    Does limit c next stack .negate ((negate limit stack).map (Move.go next)) := by
  match stack with
  | [] => exact .fails (.underflow (by decide))
  | value :: rest => exact does_push rfl hroom

theorem does_of_step {op : Opcode} {r : Except RuntimeFault Move}
    (h : step limit c op next stack = r) (hroom : stack.length ≤ limit) :
    Does limit c next stack op r := by
  subst h
  cases op with
  | constant => exact does_load hroom
  | add => exact does_combine rfl rfl .add hroom
  | subtract => exact does_combine rfl rfl .subtract hroom
  | multiply => exact does_combine rfl rfl .multiply hroom
  | divide => exact does_combine rfl rfl .divide hroom
  | negate => exact does_negate hroom
  | ret =>
      match stack with
      | [] => exact .fails (.underflow (by decide))
      | value :: rest => exact .halts rfl

end

/-! ## Places and paths -/

theorem size_le_of_byteAt? {c : Chunk} {offset : Nat} (h : c.byteAt? offset = none) :
    c.size ≤ offset :=
  Array.getElem?_eq_none_iff.mp (Option.map_eq_none_iff.mp h)

/-- A place in a run: the offset of the byte to be fetched and the stack before it. -/
structure Place where
  offset : Nat
  stack : List Float

/-- `Goes limit c p q`: the byte at `p` is skipped or carried out, and the run goes on at `q`. -/
inductive Goes (limit : Nat) (c : Chunk) (p : Place) : Place → Prop
  | skip {byte : UInt8} : c.byteAt? p.offset = some byte → Opcode.ofByte? byte = none →
      Goes limit c p ⟨p.offset + 1, p.stack⟩
  | step {byte : UInt8} {op : Opcode} {next : Nat} {stack : List Float} :
      c.byteAt? p.offset = some byte → Opcode.ofByte? byte = some op →
      step limit c op (p.offset + 1) p.stack = .ok (.go next stack) →
      Goes limit c p ⟨next, stack⟩

/-- `Ends limit c p r`: the run ends at `p` with the result `r`, because there is no byte, the
instruction there fails, or it returns a value. -/
inductive Ends (limit : Nat) (c : Chunk) (p : Place) :
    Except RuntimeError (Float × List Float) → Prop
  | past : c.byteAt? p.offset = none →
      Ends limit c p (.error ⟨.unexpectedEnd p.offset, blamedLine c p.offset⟩)
  | fault {byte : UInt8} {op : Opcode} {fault : RuntimeFault} :
      c.byteAt? p.offset = some byte → Opcode.ofByte? byte = some op →
      step limit c op (p.offset + 1) p.stack = .error fault →
      Ends limit c p (.error ⟨fault, blamedLine c p.offset⟩)
  | halt {byte : UInt8} {op : Opcode} {value : Float} {left : List Float} :
      c.byteAt? p.offset = some byte → Opcode.ofByte? byte = some op →
      step limit c op (p.offset + 1) p.stack = .ok (.halt value left) →
      Ends limit c p (.ok (value, left))

/-- `Path limit c p passed last`: from `p` the run goes on from place to place through `passed`
and comes to `last`. -/
inductive Path (limit : Nat) (c : Chunk) : Place → List Place → Place → Prop
  | here (p : Place) : Path limit c p [] p
  | goes {p q last : Place} {passed : List Place} : Goes limit c p q →
      Path limit c q passed last → Path limit c p (p :: passed) last

/-- Every place has a next one or ends the run. -/
theorem goes_or_ends (limit : Nat) (c : Chunk) (p : Place) :
    (∃ q, Goes limit c p q) ∨ ∃ r, Ends limit c p r := by
  cases hbyte : c.byteAt? p.offset with
  | none => exact .inr ⟨_, .past hbyte⟩
  | some byte =>
      cases hop : Opcode.ofByte? byte with
      | none => exact .inl ⟨_, .skip hbyte hop⟩
      | some op =>
          cases hstep : step limit c op (p.offset + 1) p.stack with
          | error fault => exact .inr ⟨_, .fault hbyte hop hstep⟩
          | ok move =>
              cases move with
              | go next stack => exact .inl ⟨_, .step hbyte hop hstep⟩
              | halt value left => exact .inr ⟨_, .halt hbyte hop hstep⟩

section
variable {limit : Nat} {c : Chunk} {p q last : Place} {passed : List Place}

/-- A byte is skipped alone and an instruction passed together with its operand. -/
theorem Goes.offset_eq (h : Goes limit c p q) (hroom : p.stack.length ≤ limit) :
    ∃ byte, c.byteAt? p.offset = some byte ∧
      q.offset = p.offset + 1 + ((Opcode.ofByte? byte).map Opcode.operandSize).getD 0 ∧
      q.offset ≤ c.size := by
  cases h with
  | skip hbyte hop =>
      refine ⟨_, hbyte, ?_, lt_size_of_byteAt? hbyte⟩
      rw [hop]
      rfl
  | @step byte op next stack hbyte hop hstep =>
      cases does_of_step hstep hroom with
      | goes _ hconstant =>
          refine ⟨byte, hbyte, by rw [hop]; rfl, ?_⟩
          cases op with
          | constant =>
              obtain ⟨index, hindex⟩ := hconstant rfl
              exact lt_size_of_byteAt? hindex
          | _ => exact lt_size_of_byteAt? hbyte

/-- The stack stays within the limit. -/
theorem Goes.height (h : Goes limit c p q) (hroom : p.stack.length ≤ limit) :
    q.stack.length ≤ limit := by
  cases h with
  | skip => exact hroom
  | step _ _ hstep =>
      cases does_of_step hstep hroom with
      | goes hheight _ => exact hheight

theorem Goes.lt (h : Goes limit c p q) : p.offset < q.offset := by
  cases h with
  | skip => exact Nat.lt_succ_self _
  | step _ _ hstep => exact le_of_step_eq_go hstep

theorem Goes.lt_size (h : Goes limit c p q) : p.offset < c.size := by
  cases h with
  | skip hbyte _ => exact lt_size_of_byteAt? hbyte
  | step hbyte _ _ => exact lt_size_of_byteAt? hbyte

/-- No place of a path has more on its stack than the limit allows. -/
theorem Path.height (h : Path limit c p passed last) (hroom : p.stack.length ≤ limit) :
    ∀ q ∈ passed ++ [last], q.stack.length ≤ limit := by
  induction h with
  | here p =>
      intro q hq
      rw [List.mem_singleton.mp hq]
      exact hroom
  | goes hgoes _ ih =>
      intro q hq
      rcases List.mem_cons.mp hq with rfl | hq
      · exact hroom
      · exact ih (hgoes.height hroom) q hq

/-- A path has at most as many places as the code has bytes, and stays within the code. -/
theorem Path.length_le (h : Path limit c p passed last) (hroom : p.stack.length ≤ limit)
    (hp : p.offset ≤ c.size) : p.offset + passed.length ≤ last.offset ∧ last.offset ≤ c.size := by
  induction h with
  | here p => exact ⟨Nat.le_refl _, hp⟩
  | goes hgoes _ ih =>
      obtain ⟨_, _, _, hle⟩ := hgoes.offset_eq hroom
      obtain ⟨hlength, hsize⟩ := ih (hgoes.height hroom) hle
      have hlt := hgoes.lt
      rw [List.length_cons]
      exact ⟨by omega, hsize⟩

end

/-! ## Runs are paths -/

/-- The note about the byte that is fetched at a place. -/
def fetchNote? (c : Chunk) (p : Place) : Option Note :=
  (c.byteAt? p.offset).map fun byte =>
    match Opcode.ofByte? byte with
    | none => .unknownOpcode byte p.offset
    | some op => .executing op p.offset p.stack

/-- What a run lets out at a place. -/
def placeEvents (o : Options) (c : Chunk) (p : Place) : List Event :=
  traceEvents o c p.offset p.stack ++ (fetchNote? c p).toList.map .note

/-- What a run lets out when it ends: a value is shown. -/
def endEvents : Except RuntimeError (Float × List Float) → List Event
  | .ok (value, _) => [.row (valueRow value)]
  | .error _ => []

/-- How far the code is read by a run that ends at a place. -/
def Place.readTo (c : Chunk) (p : Place) : Nat :=
  match (c.byteAt? p.offset).bind Opcode.ofByte? with
  | none => p.offset
  | some op => Machine.readTo c op (p.offset + 1)

section
variable {o : Options} {c : Chunk} {p q : Place}

theorem runFrom_of_past {offset : Nat} {stack : List Float} (h : c.byteAt? offset = none) :
    runFrom o c offset stack =
      ⟨⟨.error ⟨.unexpectedEnd offset, blamedLine c offset⟩, offset⟩,
        traceEvents o c offset stack⟩ := by
  rw [runFrom]
  simp only
  split
  · rfl
  · next hsome => rw [h] at hsome; cases hsome

theorem runFrom_of_unknown {offset : Nat} {stack : List Float} {byte : UInt8}
    (hbyte : c.byteAt? offset = some byte) (hop : Opcode.ofByte? byte = none) :
    runFrom o c offset stack =
      ⟨(runFrom o c (offset + 1) stack).result,
        traceEvents o c offset stack ++ .note (.unknownOpcode byte offset) ::
          (runFrom o c (offset + 1) stack).events⟩ := by
  rw [runFrom]
  simp only
  split
  · next hnone => rw [hbyte] at hnone; cases hnone
  · next hsome =>
    rw [hbyte] at hsome
    cases hsome
    simp only [hop]

theorem runFrom_of_opcode {offset : Nat} {stack : List Float} {byte : UInt8} {op : Opcode}
    (hbyte : c.byteAt? offset = some byte) (hop : Opcode.ofByte? byte = some op) :
    runFrom o c offset stack =
      let begun := traceEvents o c offset stack ++ [.note (.executing op offset stack)]
      match step o.stackMax c op (offset + 1) stack with
      | .error fault =>
        ⟨⟨.error ⟨fault, blamedLine c offset⟩, readTo c op (offset + 1)⟩, begun⟩
      | .ok (.halt value left) =>
        ⟨⟨.ok (value, left), readTo c op (offset + 1)⟩, begun ++ [.row (valueRow value)]⟩
      | .ok (.go next stack') =>
        ⟨(runFrom o c next stack').result, begun ++ (runFrom o c next stack').events⟩ := by
  rw [runFrom]
  simp only
  split
  · next hnone => rw [hbyte] at hnone; cases hnone
  · next hsome =>
    rw [hbyte] at hsome
    cases hsome
    simp only [hop]
    split <;> next hstep => simp only [hstep]

theorem fetchNote?_of_unknown {byte : UInt8} (hbyte : c.byteAt? p.offset = some byte)
    (hop : Opcode.ofByte? byte = none) :
    fetchNote? c p = some (.unknownOpcode byte p.offset) := by
  rw [fetchNote?, hbyte, Option.map_some, hop]

theorem fetchNote?_of_opcode {byte : UInt8} {op : Opcode}
    (hbyte : c.byteAt? p.offset = some byte) (hop : Opcode.ofByte? byte = some op) :
    fetchNote? c p = some (.executing op p.offset p.stack) := by
  rw [fetchNote?, hbyte, Option.map_some, hop]

theorem Place.readTo_of_opcode {byte : UInt8} {op : Opcode}
    (hbyte : c.byteAt? p.offset = some byte) (hop : Opcode.ofByte? byte = some op) :
    p.readTo c = Machine.readTo c op (p.offset + 1) := by
  rw [Place.readTo, hbyte, Option.bind_some, hop]

theorem runFrom_of_goes (h : Goes o.stackMax c p q) :
    runFrom o c p.offset p.stack =
      ⟨(runFrom o c q.offset q.stack).result,
        placeEvents o c p ++ (runFrom o c q.offset q.stack).events⟩ := by
  cases h with
  | skip hbyte hop =>
      rw [runFrom_of_unknown hbyte hop, placeEvents, fetchNote?_of_unknown hbyte hop,
        List.append_assoc]
      rfl
  | step hbyte hop hstep =>
      rw [runFrom_of_opcode hbyte hop, placeEvents, fetchNote?_of_opcode hbyte hop, hstep]
      rfl

theorem runFrom_of_ends {r : Except RuntimeError (Float × List Float)}
    (h : Ends o.stackMax c p r) :
    runFrom o c p.offset p.stack = ⟨⟨r, p.readTo c⟩, placeEvents o c p ++ endEvents r⟩ := by
  cases h with
  | past hbyte =>
      rw [runFrom_of_past hbyte, placeEvents, fetchNote?, Place.readTo, hbyte]
      simp [endEvents]
  | fault hbyte hop hstep =>
      rw [runFrom_of_opcode hbyte hop, placeEvents, fetchNote?_of_opcode hbyte hop, hstep,
        Place.readTo_of_opcode hbyte hop]
      simp [endEvents]
  | halt hbyte hop hstep =>
      rw [runFrom_of_opcode hbyte hop, placeEvents, fetchNote?_of_opcode hbyte hop, hstep,
        Place.readTo_of_opcode hbyte hop]
      rfl

/-- A path and its end determine the run. -/
theorem runFrom_of_path {last : Place} {passed : List Place}
    {r : Except RuntimeError (Float × List Float)} (h : Path o.stackMax c p passed last)
    (hends : Ends o.stackMax c last r) :
    runFrom o c p.offset p.stack =
      ⟨⟨r, last.readTo c⟩, (passed ++ [last]).flatMap (placeEvents o c) ++ endEvents r⟩ := by
  induction h with
  | here p => rw [runFrom_of_ends hends, List.nil_append, List.flatMap_singleton]
  | goes hgoes _ ih =>
      rw [runFrom_of_goes hgoes, ih hends, List.cons_append, List.flatMap_cons,
        List.append_assoc]

/-- Every run goes along a path to its end. -/
theorem exists_ends (limit : Nat) (c : Chunk) (p : Place) :
    ∃ passed last r, Path limit c p passed last ∧ Ends limit c last r := by
  -- On what is left of the code: how far the run goes on depends on the instruction.
  induction hn : c.size - p.offset using Nat.strongRecOn generalizing p with
  | ind n ih =>
      subst hn
      rcases goes_or_ends limit c p with ⟨q, hgoes⟩ | ⟨r, hends⟩
      · have hlt := hgoes.lt
        have hsize := hgoes.lt_size
        obtain ⟨passed, last, r, hpath, hends⟩ := ih (c.size - q.offset) (by omega) q rfl
        exact ⟨p :: passed, last, r, .goes hgoes hpath, hends⟩
      · exact ⟨[], p, r, .here p, hends⟩

/-- A run follows a path to its end. -/
theorem exists_path (o : Options) (c : Chunk) (p : Place) :
    ∃ passed last r, Path o.stackMax c p passed last ∧ Ends o.stackMax c last r ∧
      runFrom o c p.offset p.stack =
        ⟨⟨r, last.readTo c⟩, (passed ++ [last]).flatMap (placeEvents o c) ++ endEvents r⟩ := by
  obtain ⟨passed, last, r, hpath, hends⟩ := exists_ends o.stackMax c p
  exact ⟨passed, last, r, hpath, hends, runFrom_of_path hpath hends⟩

end

end Machine

end Reckon
