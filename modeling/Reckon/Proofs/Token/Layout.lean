/-
# Tokens do not depend on their layout

The tokens of a source can be written down again with other blanks and comments between
them (`Spaced`), and the scanner finds the same tokens (`content_ofSource_of_spaced`): of
each its kind and its lexeme, that is, for places and lines change.  What is spelled as a
token is found as that token if it stands apart from what follows, so a separator has to
begin with a blank; a comment right after a slash would swallow the slash.

Separators are padding, and padding is passed in one go whatever follows it
(`gapLength_padding`), because each of its comments is closed by a newline.
-/
import Reckon.Proofs.Token.Line
import Reckon.Proofs.Token.Spelling

namespace Reckon

/-! ## Separators -/

/-- Blanks and comments, each comment with the newline that closes it and without NUL. -/
inductive Padding : List Char → Prop
  | nil : Padding []
  | blank {c : Char} {gap : List Char} : c ∈ [' ', '\t', '\r', '\n'] → Padding gap →
      Padding (c :: gap)
  | comment {body gap : List Char} : '\n' ∉ body → '\x00' ∉ body → Padding gap →
      Padding ('/' :: '/' :: (body ++ '\n' :: gap))

/-- Padding that begins with a blank, which is what may stand between two tokens. -/
inductive Separator : List Char → Prop
  | ofBlank {c : Char} {gap : List Char} : c ∈ [' ', '\t', '\r', '\n'] → Padding gap →
      Separator (c :: gap)

/-- What a token is, wherever it stands. -/
def Token.content (t : Token) : Kind × String := (t.kind, t.lexeme)

/-- `Spaced ts text`: the text is made of the lexemes of the tokens `ts` with a separator
between any two of them, and perhaps one after the last. -/
inductive Spaced : List Token → List Char → Prop
  | nil : Spaced [] []
  | last (t : Token) : Spaced [t] t.lexeme.toList
  | next (t : Token) {ts : List Token} {separator text : List Char} : Separator separator →
      Spaced ts text → Spaced (t :: ts) (t.lexeme.toList ++ (separator ++ text))

theorem Separator.padding {gap : List Char} (h : Separator gap) : Padding gap := by
  cases h with
  | ofBlank hc hgap => exact .blank hc hgap

theorem isBlank_of_mem {c : Char} (h : c ∈ [' ', '\t', '\r', '\n']) : Cursor.isBlank c = true := by
  simp only [List.mem_cons, List.not_mem_nil, or_false] at h
  rcases h with rfl | rfl | rfl | rfl <;> rfl

theorem Separator.apart {gap : List Char} (h : Separator gap) (text : List Char) :
    Lexeme.Apart (gap ++ text) := by
  cases h with
  | ofBlank hc _ =>
      intro x hx
      cases hx
      exact isBlank_of_mem hc

theorem Padding.nul_notMem {gap : List Char} (h : Padding gap) : '\x00' ∉ gap := by
  induction h with
  | nil => exact List.not_mem_nil
  | blank hc _ ih =>
      refine List.not_mem_cons_of_ne_of_not_mem ?_ ih
      rintro rfl
      exact absurd hc (by decide)
  | comment _ hbody _ ih => simp [hbody, ih]

theorem Spaced.nul_notMem {ts : List Token} {text : List Char} (h : Spaced ts text)
    (hts : ∀ t ∈ ts, '\x00' ∉ t.lexeme.toList) : '\x00' ∉ text := by
  induction h with
  | nil => exact List.not_mem_nil
  | last t => exact hts t List.mem_cons_self
  | next t hseparator _ ih =>
      have hlexeme := hts t List.mem_cons_self
      have htext := ih fun u hu => hts u (List.mem_cons_of_mem _ hu)
      have hgap := hseparator.padding.nul_notMem
      simp [hlexeme, hgap, htext]

namespace Cursor

/-- Padding is passed whole, and then the scanner stands where it would have begun without it. -/
theorem gapLength_padding {pad : List Char} (h : Padding pad) (text : List Char) :
    gapLength false (pad ++ text) = pad.length + gapLength false text := by
  induction h with
  | nil => exact (Nat.zero_add _).symm
  | @blank c gap hc _ ih =>
      rw [List.cons_append, gapLength, if_neg Bool.false_ne_true, if_pos (isBlank_of_mem hc), ih,
        List.length_cons]
      omega
  | @comment body gap hbody _ _ ih =>
      have hcomment : gapLength true (body ++ '\n' :: (gap ++ text)) =
          body.length + gapLength false ('\n' :: (gap ++ text)) :=
        gapLength_comment hbody fun c hc => (Option.some.inj hc).symm
      have hnewline : gapLength false ('\n' :: (gap ++ text)) = gapLength false (gap ++ text) + 1 :=
        rfl
      have hopen : gapLength false ('/' :: '/' :: (body ++ '\n' :: gap) ++ text) =
          gapLength true (body ++ '\n' :: (gap ++ text)) + 1 + 1 := by
        simp only [List.cons_append, List.append_assoc]
        rfl
      rw [hopen, hcomment, hnewline, ih]
      simp only [List.length_cons, List.length_append]
      omega

/-- A token that stands apart from what follows is not the beginning of a gap. -/
theorem gapLength_spelled {kind : Kind} {cs after : List Char} (h : Spelled kind cs)
    (hafter : Lexeme.Apart after) : gapLength false (cs ++ after) = 0 := by
  obtain ⟨c, more, rfl, hfound⟩ := Lexeme.found_of_spelled h
  have hblank : ¬isBlank c = true := by
    intro hc
    have hkind := Lexeme.kind_of_spelled h
    simp only [isBlank, Bool.or_eq_true, decide_eq_true_eq] at hc
    rcases hc with ((rfl | rfl) | rfl) | rfl <;> cases hkind
  have hcomment : ¬(c = '/' ∧ (more ++ after).head? = some '/') := by
    rintro ⟨rfl, hhead⟩
    -- The slash is a token of one character, so what follows it is the separator.
    have hlength : ('/' :: more).length ≤ 1 := (hfound after).1
    have hmore : more = [] := List.length_eq_zero_iff.mp (Nat.le_zero.mp (Nat.le_of_succ_le_succ hlength))
    rw [hmore, List.nil_append] at hhead
    exact absurd (hafter '/' hhead) (by decide)
  rw [List.cons_append, gapLength, if_neg Bool.false_ne_true, if_neg hblank, if_neg hcomment]

/-- Reading a token that stands apart, after some padding. -/
theorem next_of_spelled {c : Cursor} {kind : Kind} {pad cs after : List Char}
    (hpad : Padding pad) (hspelled : Spelled kind cs) (hafter : Lexeme.Apart after)
    (hrest : c.rest = pad ++ (cs ++ after)) :
    c.skip.rest ≠ [] ∧ c.next.1.content = (kind, String.ofList cs) ∧ c.next.2.rest = after := by
  have hskip : c.skip.rest = cs ++ after := by
    show c.rest.drop (gapLength false c.rest) = _
    rw [hrest, gapLength_padding hpad, gapLength_spelled hspelled hafter, Nat.add_zero,
      List.drop_left]
  obtain ⟨first, more, rfl, _⟩ := Lexeme.found_of_spelled hspelled
  have hfirst : c.skip.rest = first :: (more ++ after) := hskip
  have hfound := Lexeme.ofChars_of_spelled hspelled (List.cons_append ..).symm hafter
  rw [next_of_cons hfirst, hfound]
  refine ⟨by rw [hfirst]; exact List.cons_ne_nil _ _, ?_, ?_⟩
  · simp only [Token.content, token, hskip, List.take_left]
  · show (c.skip.rest).drop _ = after
    rw [hskip, List.drop_left]

end Cursor

namespace TokenStream

theorem tokens_of_padding {pad : List Char} (hpad : Padding pad) {c : Cursor}
    (hrest : c.rest = pad) : (ofCursor c).tokens = [] := by
  have hend : c.skip.rest = [] := by
    show c.rest.drop (Cursor.gapLength false c.rest) = []
    rw [hrest, ← List.append_nil pad, Cursor.gapLength_padding hpad]
    exact List.drop_eq_nil_of_le (by simp)
  rw [ofCursor_of_nil hend]

/-- The scanner finds the tokens that a text was made of.  The padding is what is left of the
separator after the token before. -/
theorem content_ofCursor_of_spaced {ts : List Token} {text : List Char} (h : Spaced ts text)
    (hspelled : ∀ t ∈ ts, Spelled t.kind t.lexeme.toList) {pad : List Char} (hpad : Padding pad)
    {c : Cursor} (hrest : c.rest = pad ++ text) :
    (ofCursor c).tokens.map Token.content = ts.map Token.content := by
  induction h generalizing pad c with
  | nil =>
      rw [List.append_nil] at hrest
      rw [tokens_of_padding hpad hrest, List.map_nil]
  | last t =>
      rw [← List.append_nil t.lexeme.toList] at hrest
      obtain ⟨hne, hcontent, hafter⟩ := Cursor.next_of_spelled hpad
        (hspelled t List.mem_cons_self) Lexeme.apart_nil hrest
      rw [ofCursor_of_ne_nil hne, List.map_cons, tokens_of_padding .nil hafter, hcontent,
        String.ofList_toList]
      rfl
  | @next t ts separator text hseparator _ ih =>
      obtain ⟨hne, hcontent, hafter⟩ := Cursor.next_of_spelled hpad
        (hspelled t List.mem_cons_self) (hseparator.apart text) hrest
      have hfollowing := ih (fun u hu => hspelled u (List.mem_cons_of_mem _ hu))
        hseparator.padding hafter
      rw [ofCursor_of_ne_nil hne, List.map_cons, List.map_cons, hfollowing, hcontent,
        String.ofList_toList]
      rfl

/-- A token that is no fault has the characters of a token of its kind, and NUL is not among
them if NUL is not in the text. -/
theorem spelled_of_mem {c : Cursor} {t : Token} (h : t ∈ (ofCursor c).tokens)
    (ht : t.kind ≠ .fault) :
    Spelled t.kind t.lexeme.toList ∧ ∀ x ∈ t.lexeme.toList, x ∈ c.rest := by
  obtain ⟨n, first, more, hrest, _, rfl⟩ := shows_of_mem h
  cases Cursor.matches_token (c := c.forward n) hrest with
  | spelled hmatch hlexeme =>
      rw [hlexeme, String.toList_ofList]
      refine ⟨hmatch.spelled, fun x hx => ?_⟩
      have hmem := List.mem_of_mem_take hx
      rw [← hrest] at hmem
      exact List.mem_of_mem_drop hmem
  | unterminated _ _ hkind => exact absurd hkind ht
  | unexpected _ _ hkind => exact absurd hkind ht

/-- The tokens of a source, written down with other separators, are the tokens of what is
written: the same kinds and lexemes in the same order. -/
theorem content_ofSource_of_spaced {source source' : String}
    (hclean : ∀ t ∈ (ofSource source).tokens, t.kind ≠ .fault)
    (h : Spaced (ofSource source).tokens source'.toList) :
    (ofSource source').tokens.map Token.content = (ofSource source).tokens.map Token.content := by
  have hnul : '\x00' ∉ source'.toList := by
    refine h.nul_notMem fun t ht hmem => ?_
    have hread := (spelled_of_mem ht (hclean t ht)).2 _ hmem
    exact absurd (List.all_eq_true.mp List.all_takeWhile _ hread) (by decide)
  have hrest : (Cursor.ofSource source').rest = [] ++ source'.toList :=
    (takeWhile_eq_self_iff_notMem _).mpr hnul
  exact content_ofCursor_of_spaced h (fun t ht => (spelled_of_mem ht (hclean t ht)).1) .nil hrest

end TokenStream

end Reckon
