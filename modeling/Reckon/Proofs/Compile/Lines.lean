/-
# The lines of compiled code

Every byte of a chunk carries a line, and errors at run time are blamed on it.  The
instruction of an operator is written only after its right operand has been read, which
may be many tokens and many lines later, so it is not plain that the line is that of the
operator.

`Charges` says what the lines should be, without the parser: it goes along with the
grammar and gives the instructions of a phrase in the order of evaluation, each with the
token that it is charged to.  A chunk is then nothing but these instructions written out
(`compile_lines`), each byte on the line of its token.

A token's own line counts the newlines before the end of the token.  Only a string can
have a newline inside, and no instruction is charged to a string, so for the tokens that
matter the line is the one on which they begin (`line_of_newline_notMem`).
-/
import Reckon.Proofs.Compile.Language
import Reckon.Proofs.Token.Layout

namespace Reckon

open Reckon.Expr (Phrase Spells)

/-! ## Instructions and their tokens -/

/-- An instruction and the token that it is charged to. -/
structure Charge where
  op : Opcode
  token : Token
deriving DecidableEq, Repr

/-- The kind of the tokens that an instruction can be charged to. -/
def Opcode.sourceKind : Opcode → Kind
  | constant => .number
  | negate => .minus
  | add => .plus
  | subtract => .minus
  | multiply => .star
  | divide => .slash
  | ret => .eof

/-- A token that asks for an instruction; parentheses only group. -/
def Token.isCharged (t : Token) : Bool :=
  t.kind ≠ .leftParen ∧ t.kind ≠ .rightParen

/-- `Charges p ts is`: the tokens `ts` are a phrase of the kind `p`, and `is` are the
instructions that compute it: operands first, then the instruction itself, charged to the
token that asks for it. -/
inductive Charges : Phrase → List Token → List Charge → Prop
  | number {t : Token} (ht : t.kind = .number) : Charges .unary [t] [⟨.constant, t⟩]
  | negate {t : Token} {ts : List Token} {is : List Charge} (ht : t.kind = .minus)
      (h : Charges .unary ts is) : Charges .unary (t :: ts) (is ++ [⟨.negate, t⟩])
  | group {l r : Token} {ts : List Token} {is : List Charge} (hl : l.kind = .leftParen)
      (h : Charges .sum ts is) (hr : r.kind = .rightParen) :
      Charges .unary (l :: ts ++ [r]) is
  | ofUnary {ts : List Token} {is : List Charge} (h : Charges .unary ts is) :
      Charges .product ts is
  | ofProduct {ts : List Token} {is : List Charge} (h : Charges .product ts is) :
      Charges .sum ts is
  | binary {op : Operator} {t : Token} {ts us : List Token} {is js : List Charge}
      (ha : Charges op.phrase ts is) (ht : t.kind = op.kind)
      (hb : Charges op.phrase.operand us js) :
      Charges op.phrase (ts ++ t :: us) (is ++ js ++ [⟨op.opcode, t⟩])

namespace Charge

/-- The bytes of instructions, each on the line of its token.  A constant has a second byte,
its number, and numbers go up from `first`. -/
def code (first : Nat) : List Charge → List CodeByte
  | [] => []
  | i :: is =>
    if i.op = .constant then
      ⟨i.op.toByte, i.token.line⟩ :: ⟨UInt8.ofNat first, i.token.line⟩ :: code (first + 1) is
    else ⟨i.op.toByte, i.token.line⟩ :: code first is

/-- How many constants the instructions push. -/
def constants (is : List Charge) : Nat :=
  is.countP fun i => i.op = .constant

theorem constants_append (is js : List Charge) :
    constants (is ++ js) = constants is + constants js :=
  List.countP_append

theorem code_append (is js : List Charge) (first : Nat) :
    code first (is ++ js) = code first is ++ code (first + constants is) js := by
  induction is generalizing first with
  | nil => rfl
  | cons i is ih =>
      by_cases hop : i.op = .constant
      · have hcount : constants (i :: is) = constants is + 1 :=
          List.countP_cons_of_pos (decide_eq_true hop)
        have hfirst : first + 1 + constants is = first + constants (i :: is) := by omega
        simp only [List.cons_append, code, if_pos hop, ih, hfirst]
      · have hcount : constants (i :: is) = constants is :=
          List.countP_cons_of_neg (by simpa using hop)
        simp only [List.cons_append, code, if_neg hop, ih, hcount]

theorem code_singleton (first : Nat) {op : Opcode} (h : op ≠ .constant) (t : Token) :
    code first [⟨op, t⟩] = [⟨op.toByte, t.line⟩] :=
  if_neg h

/-- An instruction and its operand are on one line. -/
theorem map_line_code (is : List Charge) (first : Nat) :
    (code first is).map CodeByte.line =
      is.flatMap fun i => List.replicate (1 + i.op.operandSize) i.token.line := by
  induction is generalizing first with
  | nil => rfl
  | cons i is ih =>
      rw [List.flatMap_cons, ← ih (if i.op = .constant then first + 1 else first)]
      obtain ⟨op, t⟩ := i
      cases op <;> rfl

end Charge

theorem Operator.opcode_ne_constant (op : Operator) : op.opcode ≠ .constant := by
  cases op <;> decide

theorem Operator.sourceKind_opcode (op : Operator) : op.opcode.sourceKind = op.kind := by
  cases op <;> rfl

/-! ## What is charged -/

/-- Every phrase has its instructions. -/
theorem Expr.Spells.exists_charges {p : Phrase} {ts : List Token} {e : Expr}
    (h : Spells p ts e) : ∃ is, Charges p ts is := by
  induction h with
  | number ht => exact ⟨_, .number ht⟩
  | negate ht _ ih =>
      obtain ⟨is, h⟩ := ih
      exact ⟨_, .negate ht h⟩
  | group hl _ hr ih =>
      obtain ⟨is, h⟩ := ih
      exact ⟨is, .group hl h hr⟩
  | ofUnary _ ih =>
      obtain ⟨is, h⟩ := ih
      exact ⟨is, .ofUnary h⟩
  | ofProduct _ ih =>
      obtain ⟨is, h⟩ := ih
      exact ⟨is, .ofProduct h⟩
  | product hop _ ht _ iha ihb =>
      obtain ⟨is, ha⟩ := iha
      obtain ⟨js, hb⟩ := ihb
      rcases hop with rfl | rfl
      · exact ⟨_, @Charges.binary .multiply _ _ _ _ _ ha ht hb⟩
      · exact ⟨_, @Charges.binary .divide _ _ _ _ _ ha ht hb⟩
  | sum hop _ ht _ iha ihb =>
      obtain ⟨is, ha⟩ := iha
      obtain ⟨js, hb⟩ := ihb
      rcases hop with rfl | rfl
      · exact ⟨_, @Charges.binary .add _ _ _ _ _ ha ht hb⟩
      · exact ⟨_, @Charges.binary .subtract _ _ _ _ _ ha ht hb⟩

namespace Charges

variable {p : Phrase} {ts : List Token} {is : List Charge}

/-- The instructions of a phrase, written out, are the code of its tree. -/
theorem exists_spells (h : Charges p ts is) :
    ∃ e, Spells p ts e ∧ Charge.constants is = e.literals.length ∧
      ∀ first, e.code first = Charge.code first is := by
  induction h with
  | @number t ht => exact ⟨.number t, .number ht, rfl, fun _ => rfl⟩
  | @negate t _ _ ht _ ih =>
      obtain ⟨e, he, hcount, hcode⟩ := ih
      refine ⟨.negate t.line e, .negate ht he, ?_, fun first => ?_⟩
      · rw [Charge.constants_append, hcount]
        rfl
      · rw [Charge.code_append, ← hcode, Charge.code_singleton _ (by decide)]
        rfl
  | group hl _ hr ih =>
      obtain ⟨e, he, hcount, hcode⟩ := ih
      exact ⟨.group e, .group hl he hr, hcount, hcode⟩
  | ofUnary _ ih =>
      obtain ⟨e, he, h⟩ := ih
      exact ⟨e, .ofUnary he, h⟩
  | ofProduct _ ih =>
      obtain ⟨e, he, h⟩ := ih
      exact ⟨e, .ofProduct he, h⟩
  | @binary op t _ _ is js _ ht _ iha ihb =>
      obtain ⟨a, ha, hcounta, hcodea⟩ := iha
      obtain ⟨b, hb, hcountb, hcodeb⟩ := ihb
      refine ⟨.binary op t.line a b, ha.binary ht hb, ?_, fun first => ?_⟩
      · have hlast : Charge.constants [⟨op.opcode, t⟩] = 0 :=
          List.countP_cons_of_neg (by simpa using op.opcode_ne_constant)
        rw [Charge.constants_append, Charge.constants_append, hcounta, hcountb, hlast]
        exact List.length_append.symm
      · rw [Charge.code_append, Charge.code_append, ← hcodea, ← hcodeb,
          Charge.code_singleton _ op.opcode_ne_constant, hcounta]
        rfl

/-- Every instruction is charged to a token of its kind. -/
theorem kind_token (h : Charges p ts is) : ∀ i ∈ is, i.token.kind = i.op.sourceKind := by
  induction h with
  | number ht =>
      intro i hi
      rw [List.mem_singleton.mp hi]
      exact ht
  | negate ht _ ih =>
      intro i hi
      rcases List.mem_append.mp hi with hi | hi
      · exact ih i hi
      · rw [List.mem_singleton.mp hi]
        exact ht
  | group _ _ _ ih => exact ih
  | ofUnary _ ih => exact ih
  | ofProduct _ ih => exact ih
  | @binary op _ _ _ _ _ _ ht _ iha ihb =>
      intro i hi
      rcases List.mem_append.mp hi with hi | hi
      · rcases List.mem_append.mp hi with hi | hi
        · exact iha i hi
        · exact ihb i hi
      · rw [List.mem_singleton.mp hi, op.sourceKind_opcode]
        exact ht

/-- Every token but the parentheses is charged with one instruction. -/
theorem perm (h : Charges p ts is) :
    (is.map Charge.token).Perm (ts.filter Token.isCharged) := by
  induction h with
  | number ht => simp [Token.isCharged, ht]
  | @negate t ts is ht _ ih =>
      have ht' : t.isCharged = true := by simp [Token.isCharged, ht]
      rw [List.map_append, List.filter_cons_of_pos ht']
      exact (List.perm_append_singleton ..).trans (ih.cons t)
  | group hl _ hr ih => simpa [Token.isCharged, hl, hr] using ih
  | ofUnary _ ih => exact ih
  | ofProduct _ ih => exact ih
  | @binary op t ts us is js _ ht _ iha ihb =>
      have ht' : t.isCharged = true := by cases op <;> simp [Token.isCharged, ht, Operator.kind]
      rw [List.map_append, List.map_append, List.filter_append, List.filter_cons_of_pos ht',
        List.append_assoc]
      exact iha.append ((List.perm_append_singleton ..).trans (ihb.cons t))

end Charges

/-! ## Where a token begins -/

/-- Only a string can go over several lines. -/
theorem Spelled.newline_notMem {kind : Kind} {cs : List Char} (h : Spelled kind cs)
    (hkind : kind ≠ .string) : '\n' ∉ cs := by
  have hdigit : ∀ {ds : List Char}, (∀ x ∈ ds, x.isDigit = true) → '\n' ∉ ds :=
    fun hds hmem => absurd (hds _ hmem) (by decide)
  cases h with
  | reserved word => cases word <;> decide
  | identifier hc hcs _ =>
      intro hmem
      rcases List.mem_cons.mp hmem with rfl | hmem
      · exact absurd hc (by decide)
      · exact absurd (hcs _ hmem) (by decide)
  | whole hds => exact hdigit hds
  | fraction hds hes =>
      intro hmem
      rw [← List.cons_append] at hmem
      rcases List.mem_append.mp hmem with hmem | hmem
      · exact hdigit hds hmem
      · rcases List.mem_cons.mp hmem with hdot | hmem
        · exact absurd hdot (by decide)
        · exact hdigit hes hmem
  | string _ => exact absurd rfl hkind
  | mark hmark =>
      intro hmem
      rw [← List.mem_singleton.mp hmem] at hmark
      simp [marks] at hmark
  | equalMark hmark =>
      intro hmem
      rcases List.mem_cons.mp hmem with rfl | hmem
      · simp [equalMarks] at hmark
      · exact absurd (List.mem_singleton.mp hmem) (by decide)

namespace TokenStream

/-- A token without a newline inside has the line on which it begins. -/
theorem line_of_newline_notMem {source : String} {t : Token}
    (ht : t ∈ (ofSource source).toList) (hfault : t.kind ≠ .fault)
    (hline : '\n' ∉ t.lexeme.toList) :
    t.line = 1 + (source.toList.take t.start).count '\n' := by
  have htiled : Tiled (source.toList.takeWhile (· ≠ '\x00')) 0 (ofSource source).toList :=
    tiled_ofCursor _ 0 (Nat.zero_le _) (Cursor.place_zero source)
  obtain ⟨_, _, hfollows⟩ := htiled.exists_follows t ht
  have hread : source.toList.takeWhile (· ≠ '\x00') <+: source.toList := List.takeWhile_prefix _
  generalize source.toList.takeWhile (· ≠ '\x00') = text at htiled hfollows hread
  have hstart : t.start ≤ text.length :=
    Nat.le_trans (Nat.le_add_right ..) hfollows.stop_le
  have hlexeme : t.lexeme.toList = (text.drop t.start).take t.length := by
    rw [hfollows.lexeme hfault, String.toList_ofList, List.extract_eq_take_drop, Token.stop,
      Nat.add_sub_cancel_left]
  obtain ⟨below, hbelow⟩ := hread
  calc t.line
      = 1 + (text.take (t.start + t.length)).count '\n' := hfollows.line
    _ = 1 + ((text.take t.start).count '\n' + t.lexeme.toList.count '\n') := by
        rw [List.take_add, List.count_append, hlexeme]
    _ = 1 + (source.toList.take t.start).count '\n' := by
        rw [List.count_eq_zero.mpr hline, ← hbelow, List.take_append_of_le_length hstart,
          Nat.add_zero]

theorem line_of_charge {source : String} {i : Charge} (hi : i.token.kind = i.op.sourceKind)
    (hmem : i.token ∈ (ofSource source).toList) :
    i.token.line = 1 + (source.toList.take i.token.start).count '\n' := by
  have hfault : i.token.kind ≠ .fault := by
    rw [hi]
    cases i.op <;> decide
  have hstring : i.token.kind ≠ .string := by
    rw [hi]
    cases i.op <;> decide
  refine line_of_newline_notMem hmem hfault ?_
  rcases List.mem_append.mp hmem with hmem | hmem
  · exact (spelled_of_mem hmem hfault).1.newline_notMem hstring
  · rw [List.mem_singleton.mp hmem]
    exact List.not_mem_nil

end TokenStream

/-! ## Whole sources -/

/-- The code of a source that compiles has a line for every byte.  It is made of the
instructions of the source, which end with the one that returns, charged to the end: both
bytes of a constant are on the line of its literal, a negation is on the line of its minus
sign, an operation on the line of its operator.  Every token but the parentheses is charged
once, and its line counts the newlines of the source before it. -/
theorem compile_lines {o : Options} {source : String} {c : Chunk}
    (h : (compile o source).result = .ok c) :
    let stream := TokenStream.ofSource source
    c.lines.size = c.bytes.size ∧
    (∃ is, Charges .sum stream.tokens is) ∧
    ∀ is, Charges .sum stream.tokens is →
      let all := is ++ [⟨.ret, stream.eof⟩]
      c.code.toList = Charge.code 0 all ∧
      c.lines.toList =
        all.flatMap (fun i => List.replicate (1 + i.op.operandSize) i.token.line) ∧
      (is.map Charge.token).Perm (stream.tokens.filter Token.isCharged) ∧
      ∀ i ∈ all, i.token.kind = i.op.sourceKind ∧
        i.token.line = 1 + (source.toList.take i.token.start).count '\n' := by
  intro stream
  refine ⟨?_, ?_, ?_⟩
  · rw [Chunk.lines, Chunk.bytes, Array.size_map, Array.size_map]
  · obtain ⟨e, he, _⟩ := Compile.State.finish_sound (compile_eq_ok h).1
    exact he.exists_charges
  · intro is his all
    obtain ⟨e, he, _, hwritten⟩ := his.exists_spells
    obtain ⟨_, _, hcode, _⟩ := compile_sound h he
    have hall : c.code.toList = Charge.code 0 all := by
      rw [hcode, Expr.program, hwritten, Charge.code_append,
        Charge.code_singleton _ (by decide)]
      rfl
    have hkind : ∀ i ∈ all, i.token.kind = i.op.sourceKind := by
      intro i hi
      rcases List.mem_append.mp hi with hi | hi
      · exact his.kind_token i hi
      · rw [List.mem_singleton.mp hi]
        rfl
    have hmem : ∀ i ∈ all, i.token ∈ stream.toList := by
      intro i hi
      rcases List.mem_append.mp hi with hi | hi
      · have hcharged := his.perm.subset (List.mem_map_of_mem hi)
        exact List.mem_append_left _ (List.mem_filter.mp hcharged).1
      · rw [List.mem_singleton.mp hi]
        exact List.mem_append_right _ List.mem_cons_self
    refine ⟨hall, ?_, his.perm, fun i hi => ⟨hkind i hi, ?_⟩⟩
    · rw [Chunk.lines, Array.toList_map, hall, Charge.map_line_code]
    · exact TokenStream.line_of_charge (hkind i hi) (hmem i hi)

/-- The sum is on the line of its plus sign, below its left operand and above its right one. -/
theorem compile_lines_five :
    ∃ c, (compile {} "-(1 // left\n+\n2)\n* 3\n").result = .ok c ∧
      c.lines.toList = [1, 1, 3, 3, 2, 1, 4, 4, 4, 5] := by
  have htokens : (TokenStream.ofSource "-(1 // left\n+\n2)\n* 3\n").tokens =
      [⟨.minus, 0, 1, 1, "-"⟩, ⟨.leftParen, 1, 1, 1, "("⟩] ++ [⟨.number, 2, 1, 1, "1"⟩] ++
        ⟨.plus, 12, 1, 2, "+"⟩ :: [⟨.number, 14, 1, 3, "2"⟩] ++
        [⟨.rightParen, 15, 1, 3, ")"⟩] ++ ⟨.star, 17, 1, 4, "*"⟩ ::
        [⟨.number, 19, 1, 4, "3"⟩] := by
    decide +kernel
  have hend : (TokenStream.ofSource "-(1 // left\n+\n2)\n* 3\n").endLine = 5 := by
    decide +kernel
  have he : Spells .sum (TokenStream.ofSource "-(1 // left\n+\n2)\n* 3\n").tokens
      (.binary .multiply 4
        (.negate 1 (.group (.binary .add 2 (.number ⟨.number, 2, 1, 1, "1"⟩)
          (.number ⟨.number, 14, 1, 3, "2"⟩))))
        (.number ⟨.number, 19, 1, 4, "3"⟩)) := by
    rw [htokens]
    exact .ofProduct (.product (.inl rfl) (.ofUnary (.negate rfl (.group rfl
      (.sum (.inl rfl) (.ofProduct (.ofUnary (.number rfl))) rfl (.ofUnary (.number rfl)))
      rfl))) rfl (.number rfl))
  obtain ⟨c, hc⟩ := compile_complete (o := {}) he (by decide) (by decide)
  have hcharges : Charges .sum (TokenStream.ofSource "-(1 // left\n+\n2)\n* 3\n").tokens
      [⟨.constant, ⟨.number, 2, 1, 1, "1"⟩⟩, ⟨.constant, ⟨.number, 14, 1, 3, "2"⟩⟩,
        ⟨.add, ⟨.plus, 12, 1, 2, "+"⟩⟩, ⟨.negate, ⟨.minus, 0, 1, 1, "-"⟩⟩,
        ⟨.constant, ⟨.number, 19, 1, 4, "3"⟩⟩, ⟨.multiply, ⟨.star, 17, 1, 4, "*"⟩⟩] := by
    rw [htokens]
    exact .ofProduct (@Charges.binary .multiply _ _ _ _ _ (.ofUnary (.negate rfl (.group rfl
      (@Charges.binary .add _ _ _ _ _ (.ofProduct (.ofUnary (.number rfl))) rfl
        (.ofUnary (.number rfl))) rfl))) rfl (.number rfl))
  obtain ⟨_, hlines, _⟩ := (compile_lines hc).2.2 _ hcharges
  refine ⟨c, hc, ?_⟩
  rw [hlines, TokenStream.eof, hend]
  rfl

end Reckon
