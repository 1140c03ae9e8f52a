/-
# Where the tokens of a source stand

Reading a token moves a cursor forward, so every token of a source is the lexeme at
some place of it (`shows_of_mem`).  What holds of every lexeme at every place then
holds of every token: its kind, the form of its text and its line.  The line of a
token counts the newlines before its end, that of the end token counts all of them.
-/
import Reckon.Proofs.Token.Lexeme

namespace Reckon

namespace Cursor

theorem forward_forward (c : Cursor) (m n : Nat) :
    (c.forward m).forward n = c.forward (m + n) := by
  simp only [forward, List.drop_drop, List.take_add, List.count_append, Nat.add_assoc]

/-- After blanks and comments comes no blank. -/
theorem isBlank_of_drop_gapLength {first : Char} {more : List Char} :
    ∀ (l : List Char) (inComment : Bool), l.drop (gapLength inComment l) = first :: more →
      isBlank first = false := by
  intro l
  induction l with
  | nil => intro _ h; cases h
  | cons c rest ih =>
      intro inComment h
      unfold gapLength at h
      split at h
      · exact ih _ h
      · split at h
        · exact ih _ h
        · next hblank =>
          split at h
          · exact ih _ h
          · obtain ⟨rfl, _⟩ := List.cons.inj h
            exact Bool.eq_false_iff.mpr hblank

/-- `c.Shows t`: the token `t` stands somewhere in the text after the place `c`. -/
def Shows (c : Cursor) (t : Token) : Prop :=
  ∃ n first more, c.rest.drop n = first :: more ∧ isBlank first = false ∧
    t = (c.forward n).token (Lexeme.ofChars first more)

/-- What stands after a later place stands after an earlier one. -/
theorem Shows.ofForward {c : Cursor} {m : Nat} {t : Token} (h : (c.forward m).Shows t) :
    c.Shows t := by
  obtain ⟨n, first, more, hrest, hblank, rfl⟩ := h
  refine ⟨m + n, first, more, ?_, hblank, ?_⟩
  · rw [← hrest]
    exact List.drop_drop.symm
  · rw [forward_forward]

end Cursor

namespace TokenStream

/-- Every token of a stream stands somewhere in its text. -/
theorem shows_of_mem {c : Cursor} {t : Token} (h : t ∈ (ofCursor c).tokens) : c.Shows t := by
  induction c using ofCursor.induct with
  | case1 c hend =>
      rw [ofCursor, if_pos hend] at h
      cases h
  | case2 c hend ih =>
      rw [ofCursor, if_neg hend] at h
      cases hrest : c.skip.rest with
      | nil => exact absurd hrest hend
      | cons first more =>
          rcases List.mem_cons.mp h with rfl | h
          · refine ⟨Cursor.gapLength false c.rest, first, more, hrest, ?_, ?_⟩
            · exact Cursor.isBlank_of_drop_gapLength c.rest false hrest
            · simp only [Cursor.next, hrest]
              rfl
          · have hnext : c.next.2 =
                c.forward (Cursor.gapLength false c.rest + (Lexeme.ofChars first more).length) := by
              rw [← Cursor.forward_forward]
              simp only [Cursor.next, hrest]
              rfl
            exact (hnext ▸ ih h).ofForward

/-- The line of the end counts all newlines. -/
theorem endLine_ofCursor (c : Cursor) :
    (ofCursor c).endLine = c.line + c.rest.count '\n' := by
  induction c using ofCursor.induct with
  | case1 c hend =>
      rw [ofCursor, if_pos hend]
      have hall : c.rest.take (Cursor.gapLength false c.rest) = c.rest :=
        List.take_of_length_le (List.drop_eq_nil_iff.mp hend)
      show c.line + (c.rest.take (Cursor.gapLength false c.rest)).count '\n' = _
      rw [hall]
  | case2 c hend ih =>
      rw [ofCursor, if_neg hend]
      have hmoved : ∃ n, c.next.2 = c.forward n := by
        unfold Cursor.next
        split
        · next hrest => exact absurd hrest hend
        · exact ⟨_, Cursor.forward_forward ..⟩
      obtain ⟨n, hn⟩ := hmoved
      show (ofCursor c.next.2).endLine = _
      rw [ih, hn]
      calc (c.forward n).line + (c.forward n).rest.count '\n'
          = c.line + ((c.rest.take n).count '\n' + (c.rest.drop n).count '\n') :=
            Nat.add_assoc ..
        _ = c.line + c.rest.count '\n' := by
            rw [← List.count_append, List.take_append_drop]

/-! ## What the tokens are -/

/-- The end token is the only one of its kind. -/
theorem kind_ne_eof_of_mem {c : Cursor} {t : Token} (h : t ∈ (ofCursor c).tokens) :
    t.kind ≠ .eof := by
  obtain ⟨n, first, more, _, _, rfl⟩ := shows_of_mem h
  simp only [Cursor.token]
  split
  · next k hk =>
    rintro rfl
    exact Lexeme.kind_ofChars_ne first more (Or.inr rfl) hk
  · decide

/-- A number token has the form of a number. -/
theorem isNumeral_of_mem {c : Cursor} {t : Token} (h : t ∈ (ofCursor c).tokens)
    (ht : t.kind = .number) : Decimal.isNumeral t.lexeme = true := by
  obtain ⟨n, first, more, hrest, _, rfl⟩ := shows_of_mem h
  simp only [Cursor.token] at ht ⊢
  split at ht
  · next k hk =>
    subst ht
    obtain ⟨hdigit, heq⟩ := Lexeme.ofChars_eq_number hk
    show Decimal.isNumeral (String.ofList ((c.rest.drop n).take _)) = true
    rw [hrest, heq]
    exact Lexeme.isNumeral_number hdigit more
  · cases ht

/-- The text of a fault is one of the two complaints about spelling. -/
theorem lexeme_of_fault {c : Cursor} {t : Token} (h : t ∈ (ofCursor c).tokens)
    (ht : t.kind = .fault) : ∃ wrong : Misspelling, t.lexeme = wrong.message := by
  obtain ⟨n, first, more, _, _, rfl⟩ := shows_of_mem h
  simp only [Cursor.token] at ht ⊢
  split at ht
  · next k hk =>
    subst ht
    exact absurd hk (Lexeme.kind_ofChars_ne first more (Or.inl rfl))
  · exact ⟨_, rfl⟩

end TokenStream

end Reckon
