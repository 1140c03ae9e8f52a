/-
# Bytes that are no instruction

A byte that is met as an instruction and is none is skipped.  Here such bytes are deleted
instead, together with their lines (`Chunk.pruned`).  Whether a byte is one of them depends on
where it stands: the same byte may be the operand of an instruction, and then it is kept.

A run of the chunk and a run of the pruned one end in the same way (`runChunk_pruned`).  Their
offsets drift apart with every deleted byte, so the two runs are compared by what is ahead of
them: the code that the second one has still to read is that of the first one, pruned
(`Ahead`).  One instruction keeps this, and a byte that is no instruction is passed by the
first run alone.
-/
import Reckon.Proofs.Log.Sinks
import Reckon.Proofs.Machine.Decoding
import Reckon.Run

namespace Reckon

open Machine

/-! ## Pruning -/

namespace Chunk

/-- Whether no instruction has the byte at an offset. -/
def isUnknown (c : Chunk) (offset : Nat) : Bool :=
  ((c.byteAt? offset).bind Opcode.ofByte?).isNone

/-- Whether the byte at an offset is met as an instruction and is none. -/
def isInert (c : Chunk) (offset : Nat) : Bool :=
  offset ∈ c.offsetsFrom 0 && c.isUnknown offset

/-- The chunk without its inert bytes. -/
def pruned (c : Chunk) : Chunk :=
  let kept := (List.range c.size).filter fun offset => !c.isInert offset
  { c with code := (kept.filterMap fun offset => c.code[offset]?).toArray }

end Chunk

/-- Some code without the bytes that are met as instructions and are none. -/
def prune : List CodeByte → List CodeByte
  | [] => []
  | b :: rest =>
    match Opcode.ofByte? b.byte with
    | none => prune rest
    | some op => b :: (rest.take op.operandSize ++ prune (rest.drop op.operandSize))
termination_by code => code.length
decreasing_by all_goals simp only [List.length_cons, List.length_drop]; omega

theorem prune_unknown {b : CodeByte} (rest : List CodeByte) (h : Opcode.ofByte? b.byte = none) :
    prune (b :: rest) = prune rest := by
  rw [prune, h]

theorem prune_opcode {b : CodeByte} {op : Opcode} (rest : List CodeByte)
    (h : Opcode.ofByte? b.byte = some op) :
    prune (b :: rest) =
      b :: (rest.take op.operandSize ++ prune (rest.drop op.operandSize)) := by
  rw [prune, h]

namespace Chunk

variable {c : Chunk} {offset : Nat}

/-- The walk never goes back. -/
theorem le_of_mem_offsetsFrom {i : Nat} : i ∈ c.offsetsFrom offset → offset ≤ i := by
  fun_induction offsetsFrom c offset with
  | case1 offset _ ih =>
      intro h
      rcases List.mem_cons.mp h with rfl | h
      · exact Nat.le_refl _
      · exact Nat.le_trans (Nat.le_of_lt (c.lt_nextOffset offset)) (ih h)
  | case2 => exact fun h => absurd h List.not_mem_nil

/-- The walk stays within the code. -/
theorem lt_size_of_mem_offsetsFrom {i : Nat} : i ∈ c.offsetsFrom offset → i < c.size := by
  fun_induction offsetsFrom c offset with
  | case1 offset hlt ih =>
      intro h
      rcases List.mem_cons.mp h with rfl | h
      · exact hlt
      · exact ih h
  | case2 => exact fun h => absurd h List.not_mem_nil

/-- The bytes at some offsets in a row. -/
theorem filterMap_range' (code : Array CodeByte) (first n : Nat) :
    (List.range' first n).filterMap (fun i => code[i]?) = (code.toList.drop first).take n := by
  induction n generalizing first with
  | zero => simp
  | succ n ih =>
      rw [List.range'_succ, List.filterMap_cons, ih]
      cases hcode : code[first]? with
      | none =>
          have hsize := Array.getElem?_eq_none_iff.mp hcode
          simp [List.drop_of_length_le, Nat.le_succ_of_le, hsize]
      | some b =>
          rw [← Array.getElem?_toList] at hcode
          obtain ⟨hlt, hb⟩ := List.getElem?_eq_some_iff.mp hcode
          rw [List.drop_eq_getElem_cons hlt, hb, List.take_succ_cons]

/-- The offsets from a given one on whose bytes are left after the walk from there. -/
def keptFrom (c : Chunk) (offset : Nat) : List Nat :=
  (List.range' offset (c.size - offset)).filter fun i =>
    !(decide (i ∈ c.offsetsFrom offset) && c.isUnknown i)

/-- Between two places of the walk nothing is deleted, and after the second one whatever the walk
from there deletes. -/
theorem keptFrom_of_lt (h : offset < c.size) {n : Nat} (hnext : c.nextOffset offset = offset + 1 + n) :
    c.keptFrom offset =
      (if c.isUnknown offset then [] else [offset]) ++
        (List.range' (offset + 1) (min n (c.size - (offset + 1))) ++
          c.keptFrom (c.nextOffset offset)) := by
  have hwalk := offsetsFrom_of_lt h
  have hbetween : List.range' (offset + 1) (c.size - (offset + 1)) =
      List.range' (offset + 1) (min n (c.size - (offset + 1))) ++
        List.range' (c.nextOffset offset) (c.size - c.nextOffset offset) := by
    rw [hnext]
    by_cases hn : n ≤ c.size - (offset + 1)
    · rw [Nat.min_eq_left hn, List.range'_append_1]
      congr 1
      omega
    · rw [Nat.min_eq_right (by omega), show c.size - (offset + 1 + n) = 0 by omega]
      exact (List.append_nil _).symm
  have hoperand : (List.range' (offset + 1) (min n (c.size - (offset + 1)))).filter
      (fun i => !(decide (i ∈ c.offsetsFrom offset) && c.isUnknown i)) =
        List.range' (offset + 1) (min n (c.size - (offset + 1))) := by
    refine List.filter_eq_self.mpr fun i hi => ?_
    obtain ⟨hle, hlt⟩ := List.mem_range'_1.mp hi
    have hpassed : i ∉ c.offsetsFrom offset := by
      rw [hwalk, List.mem_cons, not_or]
      refine ⟨by omega, fun hmem => ?_⟩
      have := le_of_mem_offsetsFrom hmem
      omega
    simp [hpassed]
  have hafter : (List.range' (c.nextOffset offset) (c.size - c.nextOffset offset)).filter
      (fun i => !(decide (i ∈ c.offsetsFrom offset) && c.isUnknown i)) =
        c.keptFrom (c.nextOffset offset) := by
    refine List.filter_congr fun i hi => ?_
    have hle := (List.mem_range'_1.mp hi).1
    have hne : i ≠ offset := by omega
    simp [hwalk, hne]
  rw [keptFrom, show c.size - offset = c.size - (offset + 1) + 1 by omega, List.range'_succ,
    List.filter_cons, hbetween, List.filter_append, hoperand, hafter]
  have hhere : offset ∈ c.offsetsFrom offset := by
    rw [hwalk]
    exact List.mem_cons_self
  cases hunknown : c.isUnknown offset with
  | true => simp [hhere]
  | false => simp

/-- What is left after the walk from an offset is the code from there on, pruned. -/
theorem filterMap_keptFrom (c : Chunk) (offset : Nat) :
    (c.keptFrom offset).filterMap (fun i => c.code[i]?) = prune (c.code.toList.drop offset) := by
  induction offset using offsetsFrom.induct c with
  | case1 offset h ih =>
      have hlt : offset < c.code.toList.length := h
      have hcode : c.code[offset]? = some c.code[offset] := Array.getElem?_eq_getElem h
      have hbyte : c.byteAt? offset = some c.code[offset].byte := by
        rw [byteAt?, hcode, Option.map_some]
      have hnext := nextOffset_of_byteAt? hbyte
      have hrest : c.code.toList.drop (c.nextOffset offset) =
          (c.code.toList.drop (offset + 1)).drop
            (((Opcode.ofByte? c.code[offset].byte).map Opcode.operandSize).getD 0) := by
        rw [hnext, List.drop_drop]
      rw [keptFrom_of_lt h hnext, List.filterMap_append, List.filterMap_append, ih, hrest,
        filterMap_range', List.drop_eq_getElem_cons hlt, Array.getElem_toList]
      cases hop : Opcode.ofByte? c.code[offset].byte with
      | none =>
          have hunknown : c.isUnknown offset = true := by
            rw [isUnknown, hbyte, Option.bind_some, hop]
            rfl
          rw [prune_unknown _ hop, if_pos hunknown]
          simp
      | some op =>
          have hknown : ¬c.isUnknown offset = true := by
            rw [isUnknown, hbyte, Option.bind_some, hop]
            exact Bool.false_ne_true
          have hoperand : (c.code.toList.drop (offset + 1)).take
              (min op.operandSize (c.size - (offset + 1))) =
                (c.code.toList.drop (offset + 1)).take op.operandSize := by
            rw [List.take_eq_take_iff, List.length_drop]
            show min (min _ (c.size - _)) (c.size - _) = min _ (c.size - _)
            omega
          rw [prune_opcode _ hop, if_neg hknown, Option.map_some, Option.getD_some, hoperand]
          simp [hcode]
  | case2 offset h =>
      have hsize : c.size ≤ offset := Nat.le_of_not_lt h
      have hnil : c.code.toList.drop offset = [] := List.drop_eq_nil_of_le hsize
      rw [keptFrom, Nat.sub_eq_zero_of_le hsize, hnil, prune]
      rfl

/-- The pruned chunk has the pruned code. -/
theorem code_pruned (c : Chunk) : c.pruned.code.toList = prune c.code.toList := by
  have hkept := filterMap_keptFrom c 0
  rw [List.drop_zero, keptFrom, Nat.sub_zero, ← List.range_eq_range'] at hkept
  exact hkept

-- The byte 9 is no instruction, but it may number a constant.
example : (Chunk.mk #[⟨9, 1⟩, ⟨0, 2⟩, ⟨9, 2⟩, ⟨9, 3⟩, ⟨1, 4⟩] 8 Pool.empty).pruned.code =
    #[⟨0, 2⟩, ⟨9, 2⟩, ⟨1, 4⟩] := by
  decide +kernel

end Chunk

/-! ## Two runs side by side -/

/-- How two runs may end to have ended in the same way.  Where one of them asks for a byte after
the last one, so does the other, but not at the same offset. -/
inductive SameEnd {α : Type} : Except RuntimeError α → Except RuntimeError α → Prop
  | value (a : α) : SameEnd (.ok a) (.ok a)
  | fault (e : RuntimeError) : (∀ offset, e.fault ≠ .unexpectedEnd offset) →
      SameEnd (.error e) (.error e)
  | past (offset offset' line line' : Nat) :
      SameEnd (.error ⟨.unexpectedEnd offset, line⟩) (.error ⟨.unexpectedEnd offset', line'⟩)

namespace Machine

/-- `Ahead c c' i j`: what `c'` has from `j` on is what `c` has from `i` on, pruned, and the
constants are the same. -/
structure Ahead (c c' : Chunk) (i j : Nat) : Prop where
  code : c'.code.toList.drop j = prune (c.code.toList.drop i)
  constants : c'.constants = c.constants

/-- What an instruction may do in two runs that stay side by side. -/
inductive SameMove (c c' : Chunk) : Except RuntimeFault Move → Except RuntimeFault Move → Prop
  | go {i j : Nat} (stack : List Float) : Ahead c c' i j →
      SameMove c c' (.ok (.go i stack)) (.ok (.go j stack))
  | halt (value : Float) (left : List Float) :
      SameMove c c' (.ok (.halt value left)) (.ok (.halt value left))
  | fault (f : RuntimeFault) : (∀ offset, f ≠ .unexpectedEnd offset) →
      SameMove c c' (.error f) (.error f)
  | past (offset offset' : Nat) :
      SameMove c c' (.error (.unexpectedEnd offset)) (.error (.unexpectedEnd offset'))

section
variable {c c' : Chunk} {i j : Nat}

theorem SameMove.error (f : RuntimeFault) : SameMove c c' (.error f) (.error f) := by
  cases f with
  | unexpectedEnd offset => exact .past offset offset
  | stackOverflow | stackUnderflow | invalidConstant =>
      exact .fault _ fun _ => RuntimeFault.noConfusion

/-- The same change of the stack, after which the runs stay side by side. -/
theorem SameMove.map (h : Ahead c c' i j) (r : Except RuntimeFault (List Float)) :
    SameMove c c' (r.map (Move.go i)) (r.map (Move.go j)) := by
  cases r with
  | error f => exact .error f
  | ok stack => exact .go stack h

theorem code_eq_head? (c : Chunk) (i : Nat) : c.code[i]? = (c.code.toList.drop i).head? := by
  rw [List.head?_drop, Array.getElem?_toList]

theorem byteAt?_eq_head? (c : Chunk) (i : Nat) :
    c.byteAt? i = (c.code.toList.drop i).head?.map CodeByte.byte :=
  congrArg (Option.map CodeByte.byte) (code_eq_head? c i)

/-- A constant is loaded by the same operand, which is missing in both chunks or in none. -/
theorem load_sameMove (limit : Nat) (stack : List Float) (hconstants : c'.constants = c.constants)
    (hcode : c'.code.toList.drop j =
      (c.code.toList.drop i).take 1 ++ prune ((c.code.toList.drop i).drop 1)) :
    SameMove c c' ((load limit c i stack).map (Move.go (i + 1)))
      ((load limit c' j stack).map (Move.go (j + 1))) := by
  cases hahead : c.code.toList.drop i with
  | nil =>
      rw [hahead, List.take_nil, List.drop_nil, prune] at hcode
      have hnone : c.byteAt? i = none := by rw [byteAt?_eq_head?, hahead]; rfl
      have hnone' : c'.byteAt? j = none := by rw [byteAt?_eq_head?, hcode]; rfl
      simp only [load, hnone, hnone']
      exact .past i j
  | cons operand rest =>
      rw [hahead] at hcode
      have hbyte : c.byteAt? i = some operand.byte := by rw [byteAt?_eq_head?, hahead]; rfl
      have hbyte' : c'.byteAt? j = some operand.byte := by rw [byteAt?_eq_head?, hcode]; rfl
      have hload : load limit c' j stack = load limit c i stack := by
        simp only [load, hbyte, hbyte', Chunk.constantAt?, hconstants]
      rw [hload]
      refine .map ⟨?_, hconstants⟩ _
      rw [← List.drop_drop, ← List.drop_drop, hahead, hcode]
      rfl

/-- One instruction in both runs. -/
theorem step_sameMove (limit : Nat) (op : Opcode) (stack : List Float)
    (hconstants : c'.constants = c.constants)
    (hcode : c'.code.toList.drop j =
      (c.code.toList.drop i).take op.operandSize ++
        prune ((c.code.toList.drop i).drop op.operandSize)) :
    SameMove c c' (step limit c op i stack) (step limit c' op j stack) := by
  cases op with
  | constant => exact load_sameMove limit stack hconstants hcode
  | ret =>
      cases stack with
      | nil => exact .error _
      | cons value left => exact .halt value left
  | add | subtract | multiply | divide | negate => exact .map ⟨hcode, hconstants⟩ _

theorem blamedLine_of_code {b : CodeByte} (h : c.code[i]? = some b) : blamedLine c i = b.line := by
  rw [blamedLine, Chunk.lineAt?, h]
  rfl

end

/-- Runs that are side by side end in the same way. -/
theorem sameEnd_runFrom (o : Options) (c c' : Chunk) (i j : Nat) (stack : List Float)
    (h : Ahead c c' i j) :
    SameEnd (runFrom o c i stack).result.result (runFrom o c' j stack).result.result := by
  -- On what is left of the longer code: a skipped byte moves the first run on alone.
  induction hn : c.size - i using Nat.strongRecOn generalizing i j stack with
  | ind n ih =>
      subst hn
      cases hahead : c.code.toList.drop i with
      | nil =>
          have hcode := h.code
          rw [hahead, prune] at hcode
          have hnone : c.byteAt? i = none := by rw [byteAt?_eq_head?, hahead]; rfl
          have hnone' : c'.byteAt? j = none := by rw [byteAt?_eq_head?, hcode]; rfl
          rw [runFrom_of_past hnone, runFrom_of_past hnone']
          exact .past ..
      | cons b rest =>
          have hcode := h.code
          have hb : c.code[i]? = some b := by rw [code_eq_head?, hahead]; rfl
          have hbyte : c.byteAt? i = some b.byte := congrArg (Option.map CodeByte.byte) hb
          have hlt := lt_size_of_byteAt? hbyte
          have hrest : c.code.toList.drop (i + 1) = rest := by
            rw [← List.drop_drop, hahead]
            rfl
          rw [hahead] at hcode
          cases hop : Opcode.ofByte? b.byte with
          | none =>
              rw [prune_unknown rest hop] at hcode
              rw [runFrom_of_unknown hbyte hop]
              exact ih _ (by omega) (i + 1) j stack ⟨hcode.trans (by rw [hrest]), h.constants⟩ rfl
          | some op =>
              rw [prune_opcode rest hop] at hcode
              have hb' : c'.code[j]? = some b := by rw [code_eq_head?, hcode]; rfl
              have hbyte' : c'.byteAt? j = some b.byte := congrArg (Option.map CodeByte.byte) hb'
              have hcode' : c'.code.toList.drop (j + 1) =
                  (c.code.toList.drop (i + 1)).take op.operandSize ++
                    prune ((c.code.toList.drop (i + 1)).drop op.operandSize) := by
                rw [← List.drop_drop, hcode, hrest]
                rfl
              have hmove := step_sameMove o.stackMax op stack h.constants hcode'
              rw [runFrom_of_opcode hbyte hop, runFrom_of_opcode hbyte' hop,
                blamedLine_of_code hb, blamedLine_of_code hb']
              generalize hs : step o.stackMax c op (i + 1) stack = r at hmove ⊢
              generalize step o.stackMax c' op (j + 1) stack = r' at hmove ⊢
              cases hmove with
              | go stack' hnext =>
                  have hle := le_of_step_eq_go hs
                  exact ih _ (by omega) _ _ stack' hnext rfl
              | halt value left => exact .value _
              | fault f hf => exact .fault ⟨f, b.line⟩ hf
              | past offset offset' => exact .past ..

theorem ahead_pruned (c : Chunk) : Ahead c c.pruned 0 0 := by
  refine ⟨?_, rfl⟩
  rw [List.drop_zero, List.drop_zero, Chunk.code_pruned]

/-- Two executions whose runs end in the same way leave the same stack. -/
theorem execute_sameEnd {o : Options} {c c' : Chunk}
    (h : SameEnd (runFrom o c 0 []).result.result (runFrom o c' 0 []).result.result) :
    SameEnd (execute o c).result.result (execute o c').result.result ∧
      (execute o c).result.stack = (execute o c').result.stack := by
  simp only [execute, executeFrom]
  generalize (runFrom o c 0 []).result.result = r at h ⊢
  generalize (runFrom o c' 0 []).result.result = r' at h ⊢
  cases h with
  | value pair => exact ⟨.value pair.1, rfl⟩
  | fault e he => exact ⟨.fault e he, rfl⟩
  | past offset offset' line line' => exact ⟨.past offset offset' line line', rfl⟩

/-! ## Warnings -/

/-- The note about a byte that is skipped. -/
def skipNote (c : Chunk) (offset : Nat) : Note :=
  .unknownOpcode ((c.byteAt? offset).getD 0) offset

section
variable {o : Options} {c : Chunk} {p last : Place} {passed : List Place}

theorem warnings_placeEvents (h : p.fetches c = true → p.offset ∈ c.offsetsFrom 0) :
    ((placeEvents o c p).filterMap Event.note?).filter (·.level = .warn) =
      if c.isInert p.offset then [skipNote c p.offset] else [] := by
  rw [notes_placeEvents]
  cases hbyte : c.byteAt? p.offset with
  | none =>
      have hpast : p.offset ∉ c.offsetsFrom 0 := fun hmem =>
        absurd (Chunk.lt_size_of_mem_offsetsFrom hmem) (Nat.not_lt.mpr (size_le_of_byteAt? hbyte))
      simp [fetchNote?, hbyte, Chunk.isInert, hpast]
  | some byte =>
      have hmem : p.offset ∈ c.offsetsFrom 0 := h (by rw [Place.fetches, hbyte]; rfl)
      cases hop : Opcode.ofByte? byte with
      | none =>
          simp [fetchNote?_of_unknown hbyte hop, Chunk.isInert, Chunk.isUnknown, hmem, hbyte, hop,
            Note.level, skipNote]
      | some op =>
          simp [fetchNote?_of_opcode hbyte hop, Chunk.isInert, Chunk.isUnknown, hbyte, hop,
            Note.level]

theorem warnings_flatMap (visited : List Place)
    (h : ∀ p ∈ visited, p.fetches c = true → p.offset ∈ c.offsetsFrom 0) :
    ((visited.flatMap (placeEvents o c)).filterMap Event.note?).filter (·.level = .warn) =
      ((visited.map Place.offset).filter c.isInert).map (skipNote c) := by
  induction visited with
  | nil => rfl
  | cons p rest ih =>
      rw [List.flatMap_cons, List.filterMap_append, List.filter_append,
        warnings_placeEvents (h p List.mem_cons_self),
        ih fun q hq => h q (List.mem_cons_of_mem _ hq), List.map_cons, List.filter_cons]
      split <;> rfl

/-- A place where a run fetches a byte is a place of the walk. -/
theorem Path.mem_offsetsFrom (h : Path o.stackMax c ⟨0, []⟩ passed last) :
    ∀ p ∈ passed ++ [last], p.fetches c = true → p.offset ∈ c.offsetsFrom 0 := by
  intro p hp hfetches
  obtain ⟨hpre, _⟩ := h.fetched (Nat.zero_le _)
  exact hpre.subset (List.mem_map_of_mem (List.mem_filter.mpr ⟨hp, hfetches⟩))

/-- The warnings of a run are about the bytes that it skips. -/
theorem warnings_execute {r : Except RuntimeError (Float × List Float)} {ip : Nat}
    (hpath : Path o.stackMax c ⟨0, []⟩ passed last)
    (hrun : runFrom o c 0 [] =
      ⟨⟨r, ip⟩, (passed ++ [last]).flatMap (placeEvents o c) ++ endEvents r⟩) :
    (execute o c).notes.filter (·.level = .warn) =
      (((passed ++ [last]).map Place.offset).filter c.isInert).map (skipNote c) := by
  rw [← warnings_flatMap (o := o) _ hpath.mem_offsetsFrom]
  simp only [execute, executeFrom, hrun, Traced.notes]
  cases r with
  | ok pair => simp [endEvents, Event.note?, Event.row]
  | error e => simp [endEvents, Event.note?, Event.row, Note.level]

end

end Machine

/-- Deleting the bytes that are met as instructions and are none changes nothing about a run
but where the code is at its end.  The run of the pruned chunk gives the same value with the same
stack left, or fails with the same fault on the same line; or both runs ask for a byte after the
last one.  A log that lets warnings through gets one for each deleted byte that the run of the
unpruned chunk comes to, in order, and no other warnings. -/
theorem runChunk_pruned (i : Interpreter) (c : Chunk) :
    (∃ r r', (i.runChunk c).1.result = r.mapError .runtime ∧
      (i.runChunk c.pruned).1.result = r'.mapError .runtime ∧ SameEnd r r') ∧
    (i.runChunk c).2.stack = (i.runChunk c.pruned).2.stack ∧
    ∃ passed last r,
      Path i.options.stackMax c ⟨0, []⟩ passed last ∧ Ends i.options.stackMax c last r ∧
      (i.runChunk c).1.result = (r.map Prod.fst).mapError .runtime ∧
      ∀ console : Console, console.logger.enabled .warn = true →
        console.Sends (console.perform (i.runChunk c).1).2
          (console.logger.sends (console.recordsOf (i.runChunk c).1.notes)) ∧
        ((console.recordsOf (i.runChunk c).1.notes).filter (·.level = .warn)).map Record.message =
          (((passed ++ [last]).map Place.offset).filter c.isInert).map fun offset =>
            "unknown opcode " ++ toString ((c.byteAt? offset).getD 0).toNat ++ " at offset " ++
              toString offset ++ ", skipped" := by
  obtain ⟨hend, hstack⟩ := execute_sameEnd (sameEnd_runFrom i.options c c.pruned 0 0 []
    (ahead_pruned c))
  refine ⟨⟨_, _, rfl, rfl, hend⟩, hstack, ?_⟩
  obtain ⟨passed, last, r, hpath, hends, hrun⟩ := exists_path i.options c ⟨0, []⟩
  refine ⟨passed, last, r, hpath, hends, ?_, fun console hwarn => ⟨?_, ?_⟩⟩
  · simp only [Interpreter.runChunk_eq, (execute_of_run hrun).1]
  · exact console.sends_observeAll (i.runChunk c).1.events
  · have hwarnings : (i.runChunk c).1.notes.filter (·.level = .warn) = _ :=
      warnings_execute hpath hrun
    rw [Console.messages_recordsOf hwarn, hwarnings, List.map_map]
    rfl

end Reckon
