/-
# The room on the stack

The limit of the stack is looked at in one place only, where a value is pushed.  What comes of
a push is that the stack is full, or it is the same under every larger limit (`push_widen`).
This goes through all instructions (`step_widen`), and so the places of a run are places of the
run with a larger stack as well (`Path.widen`).  The two runs part only where the first one
finds its stack full; if it never does, they are the same run.

An instruction is at least one byte long and leaves at most one value more than it found
(`Goes.height_le`), so the stack is never higher than the offset at which the run stands
(`Path.height_le_offset`).  A run that finds its stack full stands before the end of the code,
so a stack with room for one value for each byte is never full.  Between too little and enough
there is one boundary, since more room does no harm (`runChunk_resized`).
-/
import Mathlib.Data.Nat.Find
import Reckon.Proofs.Machine.Decoding
import Reckon.Proofs.Machine.Safety

namespace Reckon

namespace Machine

/-! ## One instruction under two limits -/

/-- `FullOr n r r'`: `r` says that a stack with the limit `n` is full, or it is `r'`. -/
def FullOr {α : Type} (n : Nat) (r r' : Except RuntimeFault α) : Prop :=
  r = .error (.stackOverflow n) ∨ r = r'

section
variable {n m : Nat} {c : Chunk}

theorem FullOr.map {α β : Type} {r r' : Except RuntimeFault α} (h : FullOr n r r') (f : α → β) :
    FullOr n (r.map f) (r'.map f) := by
  rcases h with rfl | rfl
  · exact .inl rfl
  · exact .inr rfl

theorem push_widen (h : n ≤ m) (value : Float) (stack : List Float) :
    FullOr n (push n value stack) (push m value stack) := by
  by_cases hfull : n ≤ stack.length
  · exact .inl (push_of_le hfull value)
  · have hroom : stack.length < n := Nat.lt_of_not_le hfull
    right
    rw [push_of_lt hroom, push_of_lt (Nat.lt_of_lt_of_le hroom h)]

theorem load_widen (h : n ≤ m) (offset : Nat) (stack : List Float) :
    FullOr n (load n c offset stack) (load m c offset stack) := by
  unfold load
  cases c.byteAt? offset with
  | none => exact .inr rfl
  | some index =>
      simp only
      cases c.constantAt? index.toNat with
      | none => exact .inr rfl
      | some value => exact push_widen h value stack

-- A stack that is too low is found so before the limit is looked at.
theorem combine_widen (h : n ≤ m) (op : Operator) (stack : List Float) :
    FullOr n (combine n op stack) (combine m op stack) := by
  match stack with
  | [] => exact .inr rfl
  | [_] => exact .inr rfl
  | b :: a :: rest => exact push_widen h (op.apply a b) rest

theorem negate_widen (h : n ≤ m) (stack : List Float) :
    FullOr n (negate n stack) (negate m stack) := by
  match stack with
  | [] => exact .inr rfl
  | value :: rest => exact push_widen h (-value) rest

theorem step_widen (h : n ≤ m) (op : Opcode) (next : Nat) (stack : List Float) :
    FullOr n (step n c op next stack) (step m c op next stack) := by
  cases op with
  | constant => exact (load_widen h next stack).map _
  | add => exact (combine_widen h .add stack).map _
  | subtract => exact (combine_widen h .subtract stack).map _
  | multiply => exact (combine_widen h .multiply stack).map _
  | divide => exact (combine_widen h .divide stack).map _
  | negate => exact (negate_widen h stack).map _
  | ret => exact .inr rfl

/-! ## Whole runs under two limits -/

variable {p q last : Place} {passed : List Place}

theorem Goes.widen (hgoes : Goes n c p q) (h : n ≤ m) : Goes m c p q := by
  cases hgoes with
  | skip hbyte hop => exact .skip hbyte hop
  | @step _ op _ _ hbyte hop hstep =>
      rcases step_widen (c := c) h op (p.offset + 1) p.stack with hfull | heq
      · rw [hstep] at hfull
        cases hfull
      · exact .step hbyte hop (heq ▸ hstep)

theorem Path.widen (hpath : Path n c p passed last) (h : n ≤ m) : Path m c p passed last := by
  induction hpath with
  | here p => exact .here p
  | goes hgoes _ ih => exact .goes (hgoes.widen h) ih

/-- A run ends because its stack is full, or as it does with a larger stack. -/
theorem Ends.widen {r : Except RuntimeError (Float × List Float)} (hends : Ends n c p r)
    (h : n ≤ m) : (∃ line, r = .error ⟨.stackOverflow n, line⟩) ∨ Ends m c p r := by
  cases hends with
  | past hbyte => exact .inr (.past hbyte)
  | @fault _ op fault hbyte hop hstep =>
      rcases step_widen (c := c) h op (p.offset + 1) p.stack with hfull | heq
      · rw [hstep] at hfull
        cases hfull
        exact .inl ⟨_, rfl⟩
      · exact .inr (.fault hbyte hop (heq ▸ hstep))
  | @halt _ op _ _ hbyte hop hstep =>
      rcases step_widen (c := c) h op (p.offset + 1) p.stack with hfull | heq
      · rw [hstep] at hfull
        cases hfull
      · exact .inr (.halt hbyte hop (heq ▸ hstep))

theorem execute_widen (o : Options) (c : Chunk) (h : n ≤ m) :
    (∃ line, (execute { o with stackMax := n } c).result.result =
      .error ⟨.stackOverflow n, line⟩) ∨
    execute { o with stackMax := n } c = execute { o with stackMax := m } c := by
  obtain ⟨passed, last, r, hpath, hends, hrun⟩ :=
    exists_path { o with stackMax := n } c ⟨0, []⟩
  rcases hends.widen h with ⟨line, rfl⟩ | hends'
  · left
    exact ⟨line, (execute_of_run hrun).1⟩
  · right
    have hrun' : runFrom { o with stackMax := m } c 0 [] =
        ⟨⟨r, last.readTo c⟩,
          (passed ++ [last]).flatMap (placeEvents { o with stackMax := n } c) ++ endEvents r⟩ :=
      runFrom_of_path (o := { o with stackMax := m }) (hpath.widen h) hends'
    simp only [execute, executeFrom, hrun, hrun']

end

/-! ## How high the stack gets -/

section
variable {limit : Nat} {c : Chunk}

theorem length_push {value : Float} {stack stack' : List Float}
    (h : push limit value stack = .ok stack') : stack'.length = stack.length + 1 := by
  unfold push at h
  split at h
  · cases h
  · cases h
    rfl

theorem length_load {offset : Nat} {stack stack' : List Float}
    (h : load limit c offset stack = .ok stack') : stack'.length = stack.length + 1 := by
  unfold load at h
  split at h
  · cases h
  · split at h
    · cases h
    · exact length_push h

theorem length_combine {op : Operator} {stack stack' : List Float}
    (h : combine limit op stack = .ok stack') : stack'.length ≤ stack.length := by
  match stack with
  | [] => cases h
  | [_] => cases h
  | b :: a :: rest =>
      have hlength : stack'.length = rest.length + 1 := length_push h
      simp only [List.length_cons]
      omega

theorem length_negate {stack stack' : List Float} (h : negate limit stack = .ok stack') :
    stack'.length = stack.length := by
  match stack with
  | [] => cases h
  | value :: rest => exact length_push h

theorem eq_ok_of_map_go {r : Except RuntimeFault (List Float)} {k offset : Nat}
    {stack : List Float} (h : r.map (Move.go k) = .ok (.go offset stack)) : r = .ok stack := by
  cases r with
  | error _ => cases h
  | ok _ => cases h; rfl

/-- An instruction leaves at most one value more than it finds. -/
theorem length_of_step {op : Opcode} {next offset : Nat} {stack stack' : List Float}
    (h : step limit c op next stack = .ok (.go offset stack')) :
    stack'.length ≤ stack.length + 1 := by
  cases op with
  | constant => exact Nat.le_of_eq (length_load (eq_ok_of_map_go h))
  | add | subtract | multiply | divide =>
      exact Nat.le_succ_of_le (length_combine (eq_ok_of_map_go h))
  | negate =>
      exact Nat.le_succ_of_le (Nat.le_of_eq (length_negate (eq_ok_of_map_go h)))
  | ret => cases stack <;> cases h

variable {p q last : Place} {passed : List Place}

theorem Goes.height_le (h : Goes limit c p q) : q.stack.length ≤ p.stack.length + 1 := by
  cases h with
  | skip => exact Nat.le_succ _
  | step _ _ hstep => exact length_of_step hstep

/-- Every value on the stack was put there by a byte of the code. -/
theorem Path.height_le_offset (h : Path limit c p passed last)
    (hp : p.stack.length ≤ p.offset) : last.stack.length ≤ last.offset := by
  induction h with
  | here p => exact hp
  | goes hgoes _ ih =>
      have hheight := hgoes.height_le
      have hlt := hgoes.lt
      exact ih (by omega)

/-- Only a stack with less room than the code has bytes gets full. -/
theorem lt_size_of_overflow {o : Options} {capacity line : Nat}
    (h : (execute o c).result.result = .error ⟨.stackOverflow capacity, line⟩) :
    o.stackMax < c.size := by
  have hstart : (⟨0, []⟩ : Place).stack.length ≤ o.stackMax := Nat.zero_le _
  obtain ⟨passed, last, r, hpath, hends, hrun⟩ := exists_path o c ⟨0, []⟩
  rw [(execute_of_run hrun).1] at h
  cases r with
  | ok pair => cases h
  | error e =>
      cases h
      have hroom := hpath.height hstart last (by simp)
      have hsize := (hpath.length_le hstart (Nat.zero_le _)).2
      obtain ⟨hbyte, _, _, hfull⟩ := trueAt_of_ends hends hroom hsize
      calc o.stackMax = last.stack.length := hfull.symm
        _ ≤ last.offset := hpath.height_le_offset (Nat.le_refl 0)
        _ < c.size := lt_size_of_byteAt? hbyte

end

end Machine

/-! ## Interpreters with more or less room -/

namespace Interpreter

/-- The interpreter with another limit of its stack. -/
def resized (i : Interpreter) (limit : Nat) : Interpreter :=
  { i with options := { i.options with stackMax := limit } }

/-- A run of the chunk finds the stack full. -/
def Overflows (i : Interpreter) (c : Chunk) : Prop :=
  ∃ capacity line, (i.runChunk c).1.result = .error (.runtime ⟨.stackOverflow capacity, line⟩)

section
variable {i : Interpreter} {c : Chunk}

theorem result_runChunk_eq_runtime {e : RuntimeError} :
    (i.runChunk c).1.result = .error (.runtime e) ↔
      (Machine.execute i.options c).result.result = .error e := by
  simp only [runChunk_eq]
  cases (Machine.execute i.options c).result.result with
  | ok value => simp [Except.mapError]
  | error e' => simp [Except.mapError]

theorem Overflows.lt_size (h : i.Overflows c) : i.options.stackMax < c.size := by
  obtain ⟨capacity, line, hresult⟩ := h
  exact Machine.lt_size_of_overflow (result_runChunk_eq_runtime.mp hresult)

/-- A run finds its stack full, or is the same as with a larger one. -/
theorem runChunk_widen {n m : Nat} (h : n ≤ m) :
    (∃ line, ((i.resized n).runChunk c).1.result =
      .error (.runtime ⟨.stackOverflow n, line⟩)) ∨
    ((i.resized n).runChunk c).1 = ((i.resized m).runChunk c).1 ∧
      ((i.resized n).runChunk c).2.stack = ((i.resized m).runChunk c).2.stack := by
  rcases Machine.execute_widen i.options c h with ⟨line, hfull⟩ | heq
  · exact .inl ⟨line, result_runChunk_eq_runtime.mpr hfull⟩
  · right
    simp only [runChunk_eq, resized, heq, and_self]

/-- With more room a run that did not find its stack full does not find it full either. -/
theorem Overflows.narrow {n m : Nat} (h : (i.resized m).Overflows c) (hle : n ≤ m) :
    (i.resized n).Overflows c := by
  rcases runChunk_widen (i := i) (c := c) hle with ⟨line, hfull⟩ | ⟨heq, _⟩
  · exact ⟨n, line, hfull⟩
  · unfold Overflows
    rw [heq]
    exact h

end

/-- A run with a limit of the stack fails because the stack is full, naming that limit, or it is
the run with any larger limit: the same result, the same texts, traced or not, the same notes and
the same stack left.  Every chunk needs a certain room, of at most one value for each of its bytes,
and its run finds the stack full exactly with less room than that. -/
theorem runChunk_resized (i : Interpreter) (c : Chunk) :
    (∀ n m, n ≤ m →
      (∃ line, ((i.resized n).runChunk c).1.result =
        .error (.runtime ⟨.stackOverflow n, line⟩)) ∨
      ((i.resized n).runChunk c).1 = ((i.resized m).runChunk c).1 ∧
        ((i.resized n).runChunk c).2.stack = ((i.resized m).runChunk c).2.stack) ∧
    ∃ need ≤ c.size, ∀ n, (i.resized n).Overflows c ↔ n < need := by
  classical
  refine ⟨fun n m h => runChunk_widen h, ?_⟩
  have henough : ¬(i.resized c.size).Overflows c := fun h => Nat.lt_irrefl _ h.lt_size
  have hexists : ∃ n, ¬(i.resized n).Overflows c := ⟨c.size, henough⟩
  refine ⟨Nat.find hexists, Nat.find_min' hexists henough, fun n => ⟨fun h => ?_, fun h => ?_⟩⟩
  · refine Nat.lt_of_not_le fun hle => Nat.find_spec hexists ?_
    exact h.narrow hle
  · exact Classical.not_not.mp (Nat.find_min hexists h)

end Interpreter

end Reckon
