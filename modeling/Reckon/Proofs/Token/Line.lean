/-
# Lines of tokens and lines of the text

The scanner counts newlines, and the line of a token is one more than the newlines before
its end.  A text, on the other hand, has no line after its last newline.  The two agree
for every token that leaves something of the text behind it, and for every token of a
text that does not close with a newline.

What remains are the tokens that end where such a text ends: the end token, and a string
without its closing quote.  They are numbered one line too far
(`line_le_length_lines_iff`).  A NUL before the end of the text keeps the scanner away
from the last newline, and then there are no such tokens.
-/
import Mathlib.Data.List.TakeWhile
import Reckon.Proofs.Token.Place
import Reckon.Text.Lines

namespace Reckon

namespace Text

/-! ## Lines of a text -/

theorem eq_nil_of_lineChars {cs : List Char} (h : lineChars cs = []) : cs = [] := by
  unfold lineChars at h
  split at h
  · rfl
  · cases h
  · cases h
  · split at h <;> cases h

theorem length_lineChars (cs : List Char) :
    (lineChars cs).length =
      cs.count '\n' + if cs.getLast?.getD '\n' = '\n' then 0 else 1 := by
  fun_induction lineChars cs with
  | case1 => rfl
  | case2 rest ih =>
      rw [List.length_cons, ih, List.count_cons_self, List.getLast?_cons, Option.getD_some]
      omega
  | case3 rest ih =>
      rw [List.length_cons, ih, List.count_cons_of_ne (by decide), List.count_cons_self,
        List.getLast?_cons_cons, List.getLast?_cons, Option.getD_some]
      omega
  | case4 c rest hc _ hnil ih =>
      have hrest := eq_nil_of_lineChars hnil
      subst hrest
      rw [List.count_cons_of_ne hc, List.getLast?_singleton, Option.getD_some, if_neg hc]
      rfl
  | case5 c rest hc _ line below hbelow ih =>
      have hrest : rest ≠ [] := by
        rintro rfl
        cases hbelow
      rw [hbelow] at ih
      rw [List.count_cons_of_ne hc, List.getLast?_cons_of_ne_nil hrest, ← ih]
      rfl

/-- The part of a text up to some place closes on a line of the text, unless it is the whole
text and has a newline at its end. -/
theorem count_lt_length_lineChars_iff {cs xs : List Char} (hcs : cs ≠ []) (h : xs <+: cs) :
    xs.count '\n' < (lineChars cs).length ↔ ¬(cs.getLast? = some '\n' ∧ xs = cs) := by
  obtain ⟨ys, rfl⟩ := h
  rw [length_lineChars, List.count_append]
  cases hlast : (xs ++ ys).getLast? with
  | none => exact absurd (List.getLast?_eq_none_iff.mp hlast) hcs
  | some c =>
      rw [Option.getD_some]
      by_cases hc : c = '\n'
      · subst hc
        rw [if_pos rfl]
        cases ys with
        | nil => simp
        | cons y more =>
            -- the newline at the end is in what comes after the part
            have hmem : '\n' ∈ y :: more := by
              rw [List.getLast?_append, List.getLast?_cons, Option.some_or,
                ← List.getLast?_cons] at hlast
              exact List.mem_of_getLast? hlast
            have hpos := List.count_pos_iff.mpr hmem
            have hne : xs ≠ xs ++ y :: more := by simp
            exact ⟨fun _ hwhole => hne hwhole.2, fun _ => by omega⟩
      · rw [if_neg hc]
        exact ⟨fun _ hwhole => hc (Option.some.inj hwhole.1), fun _ => by omega⟩

end Text

/-! ## Lines of tokens -/

/-- A token that ends where the text ends: the end token or a string without its closing
quote. -/
def Token.ReachesEnd (t : Token) : Prop :=
  t.kind = .eof ∨ t.kind = .fault ∧ t.lexeme = Misspelling.unterminatedString.message

theorem reachesEnd_token_iff (here : Cursor) (first : Char) (more : List Char) :
    (here.token (Lexeme.ofChars first more)).ReachesEnd ↔
      (Lexeme.ofChars first more).kind = .error .unterminatedString := by
  unfold Token.ReachesEnd Cursor.token
  cases hkind : (Lexeme.ofChars first more).kind with
  | ok k =>
      have hne := Lexeme.kind_ofChars_ne first more (k := k)
      rw [hkind] at hne
      simp only [reduceCtorEq, iff_false]
      rintro (rfl | ⟨rfl, _⟩)
      · exact hne (.inr rfl) rfl
      · exact hne (.inl rfl) rfl
  | error wrong =>
      cases wrong with
      | unterminatedString => simp
      | unexpectedCharacter => simp [Misspelling.message]

theorem takeWhile_eq_self_iff_notMem (cs : List Char) :
    cs.takeWhile (· ≠ '\x00') = cs ↔ '\x00' ∉ cs := by
  rw [List.takeWhile_eq_self_iff]
  constructor
  · intro h hmem
    simpa using h _ hmem
  · intro h c hc
    simp only [decide_eq_true_eq]
    rintro rfl
    exact h hc

namespace TokenStream

theorem getLast?_take_of_shown {read : List Char} {n : Nat} {first : Char} {more : List Char}
    (hrest : read.drop n = first :: more) (hblank : Cursor.isBlank first = false)
    (hopen : (Lexeme.ofChars first more).kind ≠ .error .unterminatedString) :
    (read.take (n + (Lexeme.ofChars first more).length)).getLast? ≠ some '\n' := by
  have hfirst : first ≠ '\n' := by
    rintro rfl
    cases hblank
  have hlast := Lexeme.getLast?_take_ofChars hfirst hopen
  have hpos := Lexeme.length_ofChars_pos first more
  rw [List.take_add, hrest, List.getLast?_append]
  cases hlen : (Lexeme.ofChars first more).length with
  | zero => omega
  | succ k =>
      rw [hlen, List.take_succ_cons, List.getLast?_cons] at hlast
      rw [List.take_succ_cons, List.getLast?_cons, Option.some_or]
      exact hlast

/-- The line of a token counts the newlines of a part of the text.  When a newline closes the
text, that part is the whole text for the tokens that reach to its end only. -/
theorem line_of_mem {source : String} {t : Token}
    (ht : t ∈ (ofSource source).toList) :
    ∃ xs, xs <+: source.toList ∧ t.line = 1 + xs.count '\n' ∧
      (source.toList.getLast? = some '\n' →
        (xs = source.toList ↔ '\x00' ∉ source.toList ∧ t.ReachesEnd)) := by
  have hread : (Cursor.ofSource source).rest <+: source.toList := List.takeWhile_prefix _
  have hall : (Cursor.ofSource source).rest = source.toList ↔ '\x00' ∉ source.toList :=
    takeWhile_eq_self_iff_notMem _
  rcases List.mem_append.mp ht with ht | ht
  · obtain ⟨n, first, more, hrest, hblank, rfl⟩ := shows_of_mem ht
    refine ⟨(Cursor.ofSource source).rest.take (n + (Lexeme.ofChars first more).length),
      (List.take_prefix _ _).trans hread, ?_, fun hlast => ?_⟩
    · show (((Cursor.ofSource source).forward n).forward _).line = _
      rw [Cursor.forward_forward]
      rfl
    · rw [reachesEnd_token_iff]
      by_cases hopen : (Lexeme.ofChars first more).kind = .error .unterminatedString
      · have hlen := congrArg List.length hrest
        rw [List.length_drop] at hlen
        rw [Lexeme.length_of_unterminated hopen, List.take_of_length_le (by omega), hall]
        exact ⟨fun h => ⟨h, hopen⟩, And.left⟩
      · refine ⟨fun hwhole => ?_, fun h => absurd h.2 hopen⟩
        rw [← hwhole] at hlast
        exact absurd hlast (getLast?_take_of_shown hrest hblank hopen)
  · rw [List.mem_singleton.mp ht]
    refine ⟨_, hread, ?_, fun _ => ?_⟩
    · exact endLine_ofCursor _
    · rw [hall]
      exact ⟨fun h => ⟨h, .inl rfl⟩, And.left⟩

/-- The scanner's number of a token's line is the number of a line of the text, unless a newline
closes the text, all of it is read, and the token reaches to its end. -/
theorem line_le_length_lines_iff {source : String} (hsource : source ≠ "") {t : Token}
    (ht : t ∈ (ofSource source).toList) :
    t.line ≤ (Text.lines source).length ↔
      ¬(source.toList.getLast? = some '\n' ∧ '\x00' ∉ source.toList ∧ t.ReachesEnd) := by
  obtain ⟨xs, hprefix, hline, hwhole⟩ := line_of_mem ht
  have hne : source.toList ≠ [] := fun h => hsource (String.toList_eq_nil_iff.mp h)
  have hcount := Text.count_lt_length_lineChars_iff hne hprefix
  rw [Text.lines, List.length_map, hline, Nat.add_comm, Nat.succ_le_iff, hcount]
  exact not_congr (and_congr_right hwhole)

theorem line_pos {source : String} {t : Token} (ht : t ∈ (ofSource source).toList) :
    0 < t.line := by
  obtain ⟨xs, _, hline, _⟩ := line_of_mem ht
  omega

end TokenStream

end Reckon
