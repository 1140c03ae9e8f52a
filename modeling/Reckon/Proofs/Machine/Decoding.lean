/-
# A run reads the code as the listing does

The listing and the machine find the instructions of a chunk each in its own way: the
listing by adding up sizes, the machine by fetching byte after byte.  They meet the same
instructions (`Goes.nextOffset`), so the offsets of a run are the first ones of the listing
(`Path.offsets`), and all of them if the run asks for a byte after the last one
(`Ends.size_le_nextOffset`).

A traced run shows its stack and the row of the listing at every place
(`runChunk_follows_listing`).  The row of a stack has the text of its values, from the bottom
up, and they can be read back from it (`numbers_stackRow`).  The place after the code has a row
of its own, and it is shown exactly when a run asks for an instruction there.  A constant without
its operand also asks for a byte that does not exist, but then the run is still at the place of
the constant.
-/
import Reckon.Machine.Interpreter
import Reckon.Proofs.Machine.Path
import Reckon.Proofs.Text.Number

namespace Reckon

open Machine

/-! ## Offsets -/

namespace Chunk

/-- The listing passes a byte that is no instruction alone, and an instruction together with its
operand. -/
theorem nextOffset_of_byteAt? {c : Chunk} {offset : Nat} {byte : UInt8}
    (h : c.byteAt? offset = some byte) :
    c.nextOffset offset =
      offset + 1 + ((Opcode.ofByte? byte).map Opcode.operandSize).getD 0 := by
  simp only [nextOffset, instruction, h]
  cases Opcode.ofByte? byte with
  | none => rfl
  | some op =>
      cases op with
      | constant =>
          cases c.byteAt? (offset + 1) with
          | none => rfl
          | some index => rfl
      | _ => rfl

theorem offsetsFrom_of_lt {c : Chunk} {offset : Nat} (h : offset < c.size) :
    c.offsetsFrom offset = offset :: c.offsetsFrom (c.nextOffset offset) := by
  rw [offsetsFrom, if_pos h]

theorem offsetsFrom_of_le {c : Chunk} {offset : Nat} (h : c.size ≤ offset) :
    c.offsetsFrom offset = [] := by
  rw [offsetsFrom, if_neg (Nat.not_lt_of_le h)]

/-- The row of the place after the code. -/
def endRow (c : Chunk) : String :=
  Text.zeroFilled 4 c.size ++ " " ++ c.lineColumn c.size ++ " " ++ "<end of code>"

theorem listingRow_size {c : Chunk} (h : c.byteAt? c.size = none) :
    c.listingRow c.size = c.endRow := by
  unfold listingRow endRow instruction
  rw [h]

end Chunk

namespace Machine

variable {limit : Nat} {c : Chunk} {p q last : Place} {passed : List Place}

theorem Goes.nextOffset (h : Goes limit c p q) (hroom : p.stack.length ≤ limit) :
    q.offset = c.nextOffset p.offset := by
  obtain ⟨byte, hbyte, hoffset, _⟩ := h.offset_eq hroom
  rw [hoffset, Chunk.nextOffset_of_byteAt? hbyte]

/-- The listing from a place on shows the places of every path from there, and then what comes
after the path. -/
theorem Path.offsets (h : Path limit c p passed last) (hroom : p.stack.length ≤ limit) :
    c.offsetsFrom p.offset = passed.map Place.offset ++ c.offsetsFrom last.offset := by
  induction h with
  | here p => rfl
  | goes hgoes _ ih =>
      rw [Chunk.offsetsFrom_of_lt hgoes.lt_size, ← hgoes.nextOffset hroom,
        ih (hgoes.height hroom)]
      rfl

/-- A run that asks for a byte after the last one ends at the last row of the listing or after
it. -/
theorem Ends.size_le_nextOffset {offset line : Nat}
    (h : Ends limit c p (.error ⟨.unexpectedEnd offset, line⟩)) (hroom : p.stack.length ≤ limit) :
    c.size ≤ c.nextOffset p.offset := by
  cases h with
  | past hbyte =>
      exact Nat.le_trans (size_le_of_byteAt? hbyte) (Nat.le_of_lt (c.lt_nextOffset p.offset))
  | fault hbyte _ hstep =>
      cases does_of_step hstep hroom with
      | fails hfails =>
          cases hfails with
          | missing hnone =>
              rw [Chunk.nextOffset_of_byteAt? hbyte]
              exact Nat.le_trans (size_le_of_byteAt? hnone) (Nat.le_add_right _ _)

end Machine

/-! ## Rows of a traced run -/

namespace Text

theorem rows_cons (row : String) (below : List String) :
    rows (row :: below) = row ++ "\n" ++ rows below := rfl

theorem join_map_newline (lines : List String) :
    String.join (lines.map (· ++ "\n")) = rows lines := by
  induction lines with
  | nil => rfl
  | cons row below ih => rw [List.map_cons, String.join_cons, ih, rows_cons]

end Text

/-- The offset of the byte that was fetched, if a note is about that. -/
def Note.fetched? : Note → Option Nat
  | unknownOpcode _ offset => some offset
  | executing _ offset _ => some offset
  | _ => none

/-- The offsets at which bytes were fetched as instructions, in order. -/
def Traced.fetched {α : Type} (t : Traced α) : List Nat :=
  t.notes.filterMap Note.fetched?

namespace Machine

/-- Whether there is a byte to fetch at a place. -/
def Place.fetches (c : Chunk) (p : Place) : Bool :=
  (c.byteAt? p.offset).isSome

/-- The rows that a traced run shows at a place. -/
def traceRows (c : Chunk) (p : Place) : List String :=
  [stackRow p.stack, c.listingRow p.offset]

/-- The row of a stack shows its values, bottom first. -/
theorem numbers_stackRow (stack : List Float) :
    Text.numbers (stackRow stack) = stack.reverse.map Decimal.Layout.plain.text := by
  refine Text.numbers_bracketed 10 ?_
  intro s hs
  obtain ⟨x, _, rfl⟩ := List.mem_map.mp hs
  exact Decimal.isNumber_plain x

/-- The last row of a run: its value or its error. -/
def closingRow : Except RuntimeError (Float × List Float) → String
  | .ok (value, _) => valueRow value
  | .error e => e.text

section
variable {o : Options} {c : Chunk}

theorem fetched_fetchNote? (p : Place) :
    (fetchNote? c p).toList.filterMap Note.fetched? =
      if p.fetches c then [p.offset] else [] := by
  unfold fetchNote? Place.fetches
  cases c.byteAt? p.offset with
  | none => rfl
  | some byte =>
      simp only [Option.map_some]
      cases Opcode.ofByte? byte with
      | none => rfl
      | some op => rfl

theorem notes_placeEvents (p : Place) :
    (placeEvents o c p).filterMap Event.note? = (fetchNote? c p).toList := by
  unfold placeEvents traceEvents
  cases fetchNote? c p <;> cases o.traceRun <;> rfl

theorem texts_placeEvents (htrace : o.traceRun = true) (p : Place) :
    (placeEvents o c p).filterMap Event.text? = (traceRows c p).map (· ++ "\n") := by
  unfold placeEvents traceEvents
  rw [htrace]
  cases fetchNote? c p <;> rfl

theorem fetched_flatMap (visited : List Place) :
    ((visited.flatMap (placeEvents o c)).filterMap Event.note?).filterMap Note.fetched? =
      (visited.filter (·.fetches c)).map Place.offset := by
  induction visited with
  | nil => rfl
  | cons p rest ih =>
      rw [List.flatMap_cons, List.filterMap_append, List.filterMap_append, ih, notes_placeEvents,
        fetched_fetchNote?, List.filter_cons]
      split <;> rfl

theorem texts_flatMap (htrace : o.traceRun = true) (visited : List Place) :
    (visited.flatMap (placeEvents o c)).filterMap Event.text? =
      (visited.flatMap (traceRows c)).map (· ++ "\n") := by
  induction visited with
  | nil => rfl
  | cons p rest ih =>
      rw [List.flatMap_cons, List.filterMap_append, ih, texts_placeEvents htrace,
        List.flatMap_cons, List.map_append]

/-- What a run lets out after its last place: the value, or the error. -/
theorem execute_of_run {visited : List Place} {r : Except RuntimeError (Float × List Float)}
    {ip : Nat}
    (h : runFrom o c 0 [] = ⟨⟨r, ip⟩, visited.flatMap (placeEvents o c) ++ endEvents r⟩) :
    (execute o c).result.result = r.map Prod.fst ∧
      ∃ closing, (execute o c).events = visited.flatMap (placeEvents o c) ++ closing ∧
        closing.filterMap Event.text? = [closingRow r].map (· ++ "\n") ∧
        (closing.filterMap Event.note?).filterMap Note.fetched? = [] := by
  simp only [execute, executeFrom, h]
  cases r with
  | ok pair => exact ⟨rfl, _, rfl, rfl, rfl⟩
  | error e =>
      refine ⟨rfl, [.note (.runtimeFailed e), .row e.text], ?_, rfl, rfl⟩
      show visited.flatMap (placeEvents o c) ++ [] ++ _ = _
      rw [List.append_nil]

end

section
variable {limit : Nat} {c : Chunk} {p last : Place} {passed : List Place}

theorem Path.filter_fetches (h : Path limit c p passed last) :
    (passed ++ [last]).filter (·.fetches c) =
      passed ++ if c.byteAt? last.offset = none then [] else [last] := by
  induction h with
  | here p =>
      unfold Place.fetches
      cases hbyte : c.byteAt? p.offset with
      | none => simp [hbyte]
      | some byte => simp [hbyte]
  | @goes p q last passed hgoes _ ih =>
      have hp : p.fetches c = true := by
        cases hgoes with
        | skip hbyte _ => rw [Place.fetches, hbyte]; rfl
        | step hbyte _ _ => rw [Place.fetches, hbyte]; rfl
      rw [List.cons_append, List.filter_cons_of_pos hp, ih]
      rfl

/-- The bytes that a run fetches stand at the first offsets of the listing, and at all of them
if the path comes to the last row. -/
theorem Path.fetched (h : Path limit c p passed last) (hroom : p.stack.length ≤ limit) :
    ((passed ++ [last]).filter (·.fetches c)).map Place.offset <+: c.offsetsFrom p.offset ∧
      (c.size ≤ c.nextOffset last.offset →
        ((passed ++ [last]).filter (·.fetches c)).map Place.offset = c.offsetsFrom p.offset) := by
  rw [h.filter_fetches, h.offsets hroom]
  cases hbyte : c.byteAt? last.offset with
  | none =>
      rw [if_pos rfl, List.append_nil, Chunk.offsetsFrom_of_le (size_le_of_byteAt? hbyte),
        List.append_nil]
      exact ⟨List.prefix_refl _, fun _ => rfl⟩
  | some byte =>
      rw [if_neg (Option.some_ne_none byte), List.map_append,
        Chunk.offsetsFrom_of_lt (lt_size_of_byteAt? hbyte)]
      refine ⟨?_, fun hlast => ?_⟩
      · exact (List.prefix_append_right_inj _).mpr (List.prefix_append [last.offset] _)
      · rw [Chunk.offsetsFrom_of_le hlast]
        rfl

theorem Path.rows (h : Path limit c p passed last) (hlast : last.offset ≤ c.size) :
    (passed ++ [last]).flatMap (traceRows c) =
      ((passed ++ [last]).filter (·.fetches c)).flatMap (traceRows c) ++
        if c.byteAt? last.offset = none then [stackRow last.stack, c.endRow] else [] := by
  rw [h.filter_fetches]
  cases hbyte : c.byteAt? last.offset with
  | none =>
      have hend : last.offset = c.size := Nat.le_antisymm hlast (size_le_of_byteAt? hbyte)
      rw [if_pos rfl, if_pos rfl, List.append_nil, List.flatMap_append, List.flatMap_singleton,
        traceRows, hend]
      rw [hend] at hbyte
      rw [Chunk.listingRow_size hbyte]
  | some byte =>
      rw [if_neg (Option.some_ne_none byte), if_neg (Option.some_ne_none byte), List.append_nil]

end

end Machine

/-- The bytes that a run fetches as instructions stand at the offsets of the first rows of the
listing, and of all its rows if the run asks for a byte after the last one.  A traced run shows
these rows in order, each below a row with the stack before the instruction; a run that looks for
an instruction after the last byte shows the end of the code in the same way, and no other run
does.  The row of a stack has its values between brackets, bottom first, with commas between them,
and they can be read back from it. -/
theorem runChunk_follows_listing (i : Interpreter) (c : Chunk) :
    (∀ name, c.listing name =
      Text.rows (("== " ++ name ++ " ==") :: (c.offsetsFrom 0).map c.listingRow)) ∧
    (∀ stack : List Float,
      stackRow stack = "          [" ++
        Text.joined ", " (stack.reverse.map Decimal.Layout.plain.text) ++ "]" ∧
      Text.numbers (stackRow stack) = stack.reverse.map Decimal.Layout.plain.text) ∧
    ∃ passed last r fetched,
      Path i.options.stackMax c ⟨0, []⟩ passed last ∧ Ends i.options.stackMax c last r ∧
      (i.runChunk c).1.result = (r.map Prod.fst).mapError .runtime ∧
      fetched = (passed ++ [last]).filter (·.fetches c) ∧
      (i.runChunk c).1.fetched = fetched.map Place.offset ∧
      fetched.map Place.offset <+: c.offsetsFrom 0 ∧
      ((∃ offset line, r = .error ⟨.unexpectedEnd offset, line⟩) →
        fetched.map Place.offset = c.offsetsFrom 0) ∧
      (i.options.traceRun = true →
        (i.runChunk c).1.text =
          Text.rows (fetched.flatMap (fun p => [stackRow p.stack, c.listingRow p.offset]) ++
            (if c.byteAt? last.offset = none then [stackRow last.stack, c.endRow] else []) ++
            [closingRow r])) := by
  refine ⟨fun name => rfl, fun stack => ⟨rfl, numbers_stackRow stack⟩, ?_⟩
  have hstart : (⟨0, []⟩ : Place).stack.length ≤ i.options.stackMax := Nat.zero_le _
  obtain ⟨passed, last, r, hpath, hends, hrun⟩ := exists_path i.options c ⟨0, []⟩
  obtain ⟨hresult, closing, hevents, htexts, hnotes⟩ := execute_of_run hrun
  obtain ⟨hpre, hwhole⟩ := hpath.fetched hstart
  refine ⟨passed, last, r, _, hpath, hends, ?_, rfl, ?_, hpre, fun hend => ?_, fun htrace => ?_⟩
  · simp only [Interpreter.runChunk_eq, hresult]
  · simp only [Interpreter.runChunk_eq, Traced.fetched, Traced.notes, hevents]
    rw [List.filterMap_append, List.filterMap_append, hnotes, List.append_nil, fetched_flatMap]
  · obtain ⟨offset, line, rfl⟩ := hend
    exact hwhole (hends.size_le_nextOffset (hpath.height hstart last (by simp)))
  · simp only [Interpreter.runChunk_eq, Traced.text, hevents]
    have hlast := (hpath.length_le hstart (Nat.zero_le _)).2
    rw [List.filterMap_append, texts_flatMap htrace, htexts, ← List.map_append,
      Text.join_map_newline, hpath.rows hlast]
    rfl

end Reckon
