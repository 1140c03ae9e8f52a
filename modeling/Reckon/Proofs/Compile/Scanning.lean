/-
# How far a compilation has scanned

A state keeps the tokens that are still to be read as a list.  The scanner that they come
from is a cursor in the source, asked for one token at a time.  The two views are tied
together by the notes: each token that was asked for is on record (`State.scanned`).

At every state of a compilation these tokens are the first answers of the scanner, and
the list of the state is what the scanner would still find from the place where it stands
(`Scans`).  The steps of parsing keep this, and they take nothing back from the record
(`kept_scans`).  A place further on in the answers is a place further on in the source
(`position_after_le`).
-/
import Reckon.Proofs.Compile.Report
import Reckon.Proofs.Token.Partition

namespace Reckon

/-- The token that an event says was asked for. -/
def Event.scanned? : Event → Option Token
  | note (.scanned t) => some t
  | _ => none

/-! ## The answers of the scanner -/

namespace Cursor

/-- The first `n` answers of the scanner from a place on. -/
def answers (c : Cursor) (n : Nat) : List Token :=
  (List.range n).map fun i => (c.after i).next.1

theorem after_succ (c : Cursor) (n : Nat) : c.after (n + 1) = (c.after n).next.2 := by
  induction n generalizing c with
  | zero => rfl
  | succ n ih => exact ih c.next.2

theorem answers_succ (c : Cursor) (n : Nat) :
    c.answers (n + 1) = c.answers n ++ [(c.after n).next.1] := by
  simp only [answers, List.range_succ, List.map_append, List.map_singleton]

theorem position_le_next (c : Cursor) : c.position ≤ c.next.2.position := by
  have hskip : c.position ≤ c.skip.position := Nat.le_add_right ..
  unfold next
  split
  · exact hskip
  · exact Nat.le_trans hskip (Nat.le_add_right ..)

/-- Asking for more tokens never leads back. -/
theorem position_after_le (c : Cursor) {m n : Nat} (h : m ≤ n) :
    (c.after m).position ≤ (c.after n).position := by
  induction h with
  | refl => exact Nat.le_refl _
  | step _ ih =>
      rw [after_succ]
      exact Nat.le_trans ih (position_le_next _)

end Cursor

namespace TokenStream

theorem next_of_tokens_nil {c : Cursor} (h : (ofCursor c).tokens = []) :
    c.next.1 = (ofCursor c).eof ∧ ofCursor c.next.2 = ofCursor c := by
  by_cases hend : c.skip.rest = []
  · refine ⟨?_, ofCursor_next_of_nil hend⟩
    rw [Cursor.next_of_nil hend, ofCursor_of_nil hend]
    rfl
  · rw [ofCursor_of_ne_nil hend] at h
    cases h

theorem next_of_tokens_cons {c : Cursor} {t : Token} {rest : List Token}
    (h : (ofCursor c).tokens = t :: rest) :
    c.next.1 = t ∧ ofCursor c.next.2 = { ofCursor c with tokens := rest } := by
  by_cases hend : c.skip.rest = []
  · rw [ofCursor_of_nil hend] at h
    cases h
  · rw [ofCursor_of_ne_nil hend] at h ⊢
    obtain ⟨rfl, rfl⟩ := List.cons.inj h
    exact ⟨rfl, rfl⟩

end TokenStream

/-! ## What a state has scanned -/

namespace Compile.State

/-- The tokens that the scanner was asked for. -/
def scanned (s : State) : List Token :=
  s.events.toList.filterMap Event.scanned?

/-- `s.Scans c least ts`: of the tokens from the place `c` on, the state `s` has asked for at
least `least`, and the tokens `ts` are still to be asked for. -/
structure Scans (s : State) (c : Cursor) (least : Nat) (ts : List Token) : Prop where
  scanned : s.scanned = c.answers s.scanned.length
  stream : { s.stream with tokens := ts } = TokenStream.ofCursor (c.after s.scanned.length)
  least : least ≤ s.scanned.length

section
variable {s s' : State} {c : Cursor} {least : Nat} {ts : List Token}

theorem Scans.congr (h : s.Scans c least ts) (hscanned : s'.scanned = s.scanned)
    (hstream : s'.stream = s.stream) : s'.Scans c least ts where
  scanned := by rw [hscanned]; exact h.scanned
  stream := by rw [hscanned, hstream]; exact h.stream
  least := by rw [hscanned]; exact h.least

theorem scanned_emit {e : Event} (he : e.scanned? = none) (s : State) :
    (s.emit e).scanned = s.scanned := by
  unfold scanned
  rw [filterMap_emit, he]
  exact List.append_nil _

@[simp]
theorem scanned_report (s : State) (t : Token) (message : String) :
    (s.report t message).scanned = s.scanned :=
  filterMap_report (fun _ => rfl) (fun _ => rfl) (fun _ => rfl) s t message

@[simp]
theorem scanned_write (s : State) (byte : UInt8) (line : Nat) :
    (s.write byte line).scanned = s.scanned :=
  filterMap_write (fun _ _ => rfl) s byte line

/-- One more answer of the scanner, with what it leaves. -/
theorem Scans.note {t : Token} {rest : List Token} (h : s.Scans c least ts)
    (ht : (c.after s.scanned.length).next.1 = t)
    (hrest : TokenStream.ofCursor (c.after s.scanned.length).next.2 =
      { s.stream with tokens := rest }) :
    (s.note (.scanned t)).Scans c least rest := by
  have hmore : (s.note (.scanned t)).scanned = s.scanned ++ [t] := filterMap_emit ..
  have hlength : (s.note (.scanned t)).scanned.length = s.scanned.length + 1 := by
    rw [hmore, List.length_append]
    rfl
  refine ⟨?_, ?_, ?_⟩
  · rw [hlength, Cursor.answers_succ, ht, ← h.scanned]
    exact hmore
  · rw [hlength, Cursor.after_succ, hrest]
    rfl
  · rw [hlength]
    exact Nat.le_succ_of_le h.least

theorem Scans.fetch (h : s.Scans c least ts) :
    (s.fetch ts).Scans c least (s.fetch ts).stream.tokens := by
  induction ts generalizing s with
  | nil =>
      have htokens := (congrArg TokenStream.tokens h.stream).symm
      obtain ⟨hnext, hrest⟩ := TokenStream.next_of_tokens_nil htokens
      rw [← h.stream] at hnext hrest
      have hnoted := h.note hnext hrest
      exact ⟨hnoted.scanned, hnoted.stream, hnoted.least⟩
  | cons t rest ih =>
      have htokens := (congrArg TokenStream.tokens h.stream).symm
      obtain ⟨hnext, hrest⟩ := TokenStream.next_of_tokens_cons htokens
      rw [← h.stream] at hrest
      have hnoted := h.note hnext hrest
      unfold State.fetch
      split
      · exact ih (hnoted.congr (scanned_report ..) (stream_report ..))
      · exact ⟨hnoted.scanned, hnoted.stream, hnoted.least⟩

@[simp]
theorem stream_writeNumber (s : State) : s.writeNumber.stream = s.stream := by
  unfold State.writeNumber writeConstant
  split
  · simp only
    split
    · exact stream_report ..
    · rfl
  · exact stream_report ..

@[simp]
theorem scanned_writeNumber (s : State) : s.writeNumber.scanned = s.scanned := by
  unfold State.writeNumber writeConstant
  split
  · simp only
    split
    · exact scanned_report ..
    · rw [scanned_write]
      exact (scanned_write ..).trans (scanned_emit rfl _)
  · exact scanned_report ..

/-- A step that asks for nothing. -/
theorem Scans.stay (h : s.Scans c least s.stream.tokens) (hscanned : s'.scanned = s.scanned)
    (hstream : s'.stream = s.stream) : s'.Scans c least s'.stream.tokens := by
  rw [hstream]
  exact h.congr hscanned hstream

end

theorem kept_scans (c : Cursor) (least : Nat) :
    Kept (fun s => s.Scans c least s.stream.tokens) where
  advance := Scans.fetch
  blame := fun _ _ h => h.stay (scanned_report ..) (stream_report ..)
  blamePassed := fun h => h.fetch.stay (scanned_report ..) (stream_report ..)
  writeOp := fun _ _ _ h => h.stay (scanned_write ..) rfl
  writeNumber := fun h _ => h.fetch.stay (scanned_writeNumber _) (stream_writeNumber _)

theorem scans_first (source : String) :
    (start source).advance.Scans (Cursor.ofSource source) 0
      (start source).advance.stream.tokens :=
  (kept_scans _ 0).advance ⟨rfl, rfl, Nat.le_refl 0⟩

end Compile.State

end Reckon
