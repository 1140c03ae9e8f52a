/-
# What a diagnostic can be about

Whatever the source, a diagnostic blames one token of it, the end token included: it
has the line of that token, points at it, and says either what a misspelled token says
of itself or what the parser misses there (`blames_of_finish`).  One complaint is never
made, the one about a number that cannot be read, since the scanner takes nothing for a
number that is not one.

The invariant behind this is `Tracks`: the tokens that a state looks at and has still to
read are tokens of the source.
-/
import Reckon.Proofs.Compile.Session
import Reckon.Proofs.Token.Place

namespace Reckon

/-- `stream.Blames d`: the diagnostic `d` is about a token of the stream. -/
def TokenStream.Blames (stream : TokenStream) (d : Diagnostic) : Prop :=
  ∃ t ∈ stream.toList, d.line = t.line ∧ d.location = Compile.State.location t ∧
    if t.kind = .fault then d.message = t.lexeme
    else ∃ c : Complaint, c ≠ .invalidNumber ∧ d.message = c.message

namespace Compile.State

/-! ## What reading and blaming leave alone -/

@[simp]
theorem chunk_report (s : State) (t : Token) (message : String) :
    (s.report t message).chunk = s.chunk := by
  unfold report
  split <;> rfl

@[simp]
theorem current_report (s : State) (t : Token) (message : String) :
    (s.report t message).current = s.current := by
  unfold report
  split <;> rfl

@[simp]
theorem stream_report (s : State) (t : Token) (message : String) :
    (s.report t message).stream = s.stream := by
  unfold report
  split <;> rfl

theorem chunk_fetch : ∀ (ts : List Token) (s : State), (s.fetch ts).chunk = s.chunk
  | [], _ => rfl
  | t :: rest, s => by
      unfold fetch
      split
      · rw [chunk_fetch rest, chunk_report]
        rfl
      · rfl

theorem previous_fetch : ∀ (ts : List Token) (s : State), (s.fetch ts).previous = s.current
  | [], _ => rfl
  | t :: rest, s => by
      unfold fetch
      split
      · rw [previous_fetch rest, current_report]
        rfl
      · rfl

/-- A step that reads a token leaves the chunk as it is, and what was current is passed. -/
theorem chunk_advance (s : State) : s.advance.chunk = s.chunk :=
  chunk_fetch _ s

theorem previous_advance (s : State) : s.advance.previous = s.current :=
  previous_fetch _ s

/-! ## The tokens of a state -/

/-- `Tracks stream s`: what `s` looks at and has still to read are tokens of `stream`, and its
diagnostic is about one of them. -/
structure Tracks (stream : TokenStream) (s : State) : Prop where
  tokens : s.stream.tokens ⊆ stream.tokens
  eof : s.stream.eof = stream.eof
  blames : ∀ d ∈ s.diagnostic, stream.Blames d
  current : s.current ∈ stream.toList
  kind : s.current.kind ≠ .fault

section
variable {stream : TokenStream}

theorem blames_report {s : State} {t : Token} {message : String}
    (hs : ∀ d ∈ s.diagnostic, stream.Blames d)
    (ht : stream.Blames ⟨t.line, location t, message⟩) :
    ∀ d ∈ (s.report t message).diagnostic, stream.Blames d := by
  intro d hd
  rw [diagnostic_report] at hd
  cases hs' : s.diagnostic with
  | none =>
      rw [hs'] at hd
      cases hd
      exact ht
  | some d' =>
      rw [hs'] at hd
      cases hd
      exact hs d' hs'

theorem blames_complaint {t : Token} {c : Complaint} (ht : t ∈ stream.toList)
    (hkind : t.kind ≠ .fault) (hc : c ≠ .invalidNumber) :
    stream.Blames ⟨t.line, location t, c.message⟩ :=
  ⟨t, ht, rfl, rfl, by rw [if_neg hkind]; exact ⟨c, hc, rfl⟩⟩

/-- Fetching starts with any current token, also with the one before the first. -/
theorem tracks_fetch : ∀ (ts : List Token) {s : State}, ts ⊆ stream.tokens →
    s.stream.eof = stream.eof → (∀ d ∈ s.diagnostic, stream.Blames d) →
      Tracks stream (s.fetch ts)
  | [], s, _, heof, hd => by
      refine ⟨fun t ht => absurd ht List.not_mem_nil, heof, hd, ?_, ?_⟩
      · show s.stream.eof ∈ stream.toList
        rw [heof]
        exact List.mem_append_right _ List.mem_cons_self
      · show Kind.eof ≠ .fault
        decide
  | t :: rest, s, hts, heof, hd => by
      have hmem : t ∈ stream.toList := List.mem_append_left _ (hts List.mem_cons_self)
      have hrest : rest ⊆ stream.tokens := fun u hu => hts (List.mem_cons_of_mem _ hu)
      unfold fetch
      split
      · next hfault =>
        refine tracks_fetch rest hrest ?_ (blames_report hd ?_)
        · rw [stream_report]
          exact heof
        · exact ⟨t, hmem, rfl, rfl, by rw [if_pos hfault]⟩
      · next hkind => exact ⟨hrest, heof, hd, hmem, hkind⟩

theorem Tracks.advance {s : State} (h : Tracks stream s) : Tracks stream s.advance :=
  tracks_fetch _ h.tokens h.eof h.blames

theorem Tracks.report {s : State} {t : Token} {c : Complaint} (h : Tracks stream s)
    (ht : t ∈ stream.toList) (hkind : t.kind ≠ .fault) (hc : c ≠ .invalidNumber) :
    Tracks stream (s.report t c.message) := by
  refine ⟨?_, ?_, blames_report h.blames (blames_complaint ht hkind hc), ?_, ?_⟩
  · rw [stream_report]
    exact h.tokens
  · rw [stream_report]
    exact h.eof
  · rw [current_report]
    exact h.current
  · rw [current_report]
    exact h.kind

theorem Tracks.writeNumber {s : State} (h : Tracks stream s)
    (hprevious : s.previous ∈ stream.toList) (hkind : s.previous.kind ≠ .fault)
    (hnumeral : Decimal.isNumeral s.previous.lexeme = true) : Tracks stream s.writeNumber := by
  unfold State.writeNumber writeConstant
  rw [Decimal.read?_of_isNumeral hnumeral]
  simp only
  split
  · exact h.report hprevious hkind (by decide)
  · exact ⟨h.tokens, h.eof, h.blames, h.current, h.kind⟩

/-- The numbers of a stream have to be numbers; then nothing that happens makes a state lose
track of it. -/
theorem kept_tracks (hnumeral : ∀ t ∈ stream.toList, t.kind = .number →
    Decimal.isNumeral t.lexeme = true) : Kept (Tracks stream) where
  advance := Tracks.advance
  blame := fun _ hc h => h.report h.current h.kind hc
  blamePassed := by
    intro s h
    rw [previous_advance]
    exact h.advance.report h.current h.kind (by decide)
  writeOp := fun _ _ _ h => ⟨h.tokens, h.eof, h.blames, h.current, h.kind⟩
  writeNumber := by
    intro s h hkind
    refine h.advance.writeNumber ?_ ?_ ?_
    · rw [previous_advance]
      exact h.current
    · rw [previous_advance]
      exact h.kind
    · rw [previous_advance] at hkind ⊢
      exact hnumeral _ h.current hkind

end

theorem isNumeral_of_mem_ofSource {source : String} {t : Token}
    (ht : t ∈ (TokenStream.ofSource source).toList) (hkind : t.kind = .number) :
    Decimal.isNumeral t.lexeme = true := by
  rcases List.mem_append.mp ht with ht | ht
  · exact TokenStream.isNumeral_of_mem ht hkind
  · rw [List.mem_singleton.mp ht] at hkind
    cases hkind

/-- The diagnostic of a source is about one of its tokens. -/
theorem blames_of_finish {source : String} {maxNesting : Nat} {d : Diagnostic}
    (h : (finish source maxNesting).diagnostic = some d) :
    (TokenStream.ofSource source).Blames d := by
  have hkept : Kept (Tracks (.ofSource source)) :=
    kept_tracks fun _ => isNumeral_of_mem_ofSource
  have hfirst : Tracks (.ofSource source) (start source).advance :=
    tracks_fetch _ (List.Subset.refl _) rfl (fun d hd => by cases hd)
  have hlast := hkept.consume (hkept.parse maxNesting .assignment hfirst) .eof
    (c := .expectEnd) (by decide)
  exact hlast.blames d h

/-- No source is refused because a number cannot be read. -/
theorem message_ne_invalidNumber {source : String} {d : Diagnostic}
    (h : (TokenStream.ofSource source).Blames d) :
    d.message ≠ Complaint.invalidNumber.message := by
  obtain ⟨t, ht, _, _, hmessage⟩ := h
  split at hmessage
  · next hfault =>
    rcases List.mem_append.mp ht with ht | ht
    · obtain ⟨wrong, hwrong⟩ := TokenStream.lexeme_of_fault ht hfault
      rw [hmessage, hwrong]
      cases wrong <;> decide
    · rw [List.mem_singleton.mp ht] at hfault
      cases hfault
  · obtain ⟨c, hc, hmessage⟩ := hmessage
    rw [hmessage]
    cases c with
    | invalidNumber => exact absurd rfl hc
    | _ => decide

end Compile.State

end Reckon
