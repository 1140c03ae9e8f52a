/-
# Tokens and gaps make up the source

Between the tokens of a source there is nothing but blanks and comments (`Gap`).  One call
of the scanner skips a gap and reads the token after it (`follows_next`); calling it again
and again cuts the text that is read into gaps and tokens from its first character to its
last (`tiled_ofCursor`).  No character is lost, none is read twice, and after the end there
is only the end (`ofSource_partitions`).

Places are numbers of characters from the start of the source.  The text that is read ends
before the first NUL, and so do all tokens.
-/
import Reckon.Proofs.Token.Place

namespace Reckon

/-! ## Gaps -/

/-- `Gap gap after`: the text `gap`, followed by the text `after`, is made of blanks and
comments.  A comment runs up to a newline or to the end of the text. -/
inductive Gap : List Char → List Char → Prop
  | nil (after : List Char) : Gap [] after
  | blank {c : Char} {gap after : List Char} : c ∈ [' ', '\t', '\r', '\n'] → Gap gap after →
      Gap (c :: gap) after
  | comment {body gap after : List Char} : '\n' ∉ body →
      (∀ c ∈ (gap ++ after).head?, c = '\n') → Gap gap after →
      Gap ('/' :: '/' :: (body ++ gap)) after

namespace Cursor

theorem gapLength_le (cs : List Char) (inComment : Bool) :
    gapLength inComment cs ≤ cs.length := by
  induction cs generalizing inComment with
  | nil => exact Nat.le_refl 0
  | cons c rest ih =>
      unfold gapLength
      split
      · exact Nat.succ_le_succ (ih _)
      · split
        · exact Nat.succ_le_succ (ih _)
        · split
          · exact Nat.succ_le_succ (ih _)
          · exact Nat.zero_le _

theorem mem_of_isBlank {c : Char} (h : isBlank c = true) : c ∈ [' ', '\t', '\r', '\n'] := by
  simp only [isBlank, Bool.or_eq_true, decide_eq_true_eq] at h
  rcases h with ((rfl | rfl) | rfl) | rfl <;> decide

/-- A text is cut before its first newline. -/
theorem exists_first_line (cs : List Char) :
    ∃ line below, cs = line ++ below ∧ '\n' ∉ line ∧ ∀ c ∈ below.head?, c = '\n' := by
  refine ⟨cs.takeWhile (· ≠ '\n'), cs.dropWhile (· ≠ '\n'),
    List.takeWhile_append_dropWhile.symm, fun hmem => ?_, fun c hc => ?_⟩
  · have hne := List.all_eq_true.mp List.all_takeWhile _ hmem
    simp at hne
  · have hhead := List.head?_dropWhile_not (fun x => decide (x ≠ '\n')) cs
    rw [Option.mem_def.mp hc] at hhead
    simpa using hhead

/-- A comment is passed up to the next newline, which is then a blank. -/
theorem gapLength_comment {body below : List Char} (hbody : '\n' ∉ body)
    (hbelow : ∀ c ∈ below.head?, c = '\n') :
    gapLength true (body ++ below) = body.length + gapLength false below := by
  induction body with
  | nil =>
      cases below with
      | nil => rfl
      | cons c rest =>
          obtain rfl : c = '\n' := hbelow c rfl
          simp [gapLength, isBlank]
  | cons c rest ih =>
      have hc : c ≠ '\n' := fun h => hbody (h ▸ List.mem_cons_self)
      have hrest := ih fun h => hbody (List.mem_cons_of_mem _ h)
      simp only [List.cons_append, gapLength, if_true, decide_eq_true hc, hrest, List.length_cons]
      omega

theorem gap_comment {body below : List Char} (hbody : '\n' ∉ body)
    (hbelow : ∀ c ∈ below.head?, c = '\n')
    (h : Gap (below.take (gapLength false below)) (below.drop (gapLength false below))) :
    let cs := '/' :: '/' :: (body ++ below)
    Gap (cs.take (gapLength false cs)) (cs.drop (gapLength false cs)) := by
  have hlength : gapLength false ('/' :: '/' :: (body ++ below)) =
      body.length + gapLength false below + 1 + 1 :=
    congrArg (· + 1 + 1) (gapLength_comment hbody hbelow)
  simp only [hlength, List.take_succ_cons, List.drop_succ_cons, List.take_length_add_append,
    List.drop_length_add_append]
  refine .comment hbody ?_ h
  rw [List.take_append_drop]
  exact hbelow

/-- What is skipped is a gap.  The induction is on the length of the text, since a comment is
passed in one go. -/
theorem gap_gapLength (cs : List Char) :
    Gap (cs.take (gapLength false cs)) (cs.drop (gapLength false cs)) := by
  induction hn : cs.length using Nat.strongRecOn generalizing cs with
  | ind n ih =>
      subst hn
      cases cs with
      | nil => exact .nil _
      | cons c rest =>
          by_cases hblank : isBlank c = true
          · have hgap : gapLength false (c :: rest) = gapLength false rest + 1 := by
              rw [gapLength, if_neg Bool.false_ne_true, if_pos hblank]
            rw [hgap, List.take_succ_cons, List.drop_succ_cons]
            exact .blank (mem_of_isBlank hblank) (ih _ (Nat.lt_succ_self _) rest rfl)
          · by_cases hslash : c = '/' ∧ rest.head? = some '/'
            · obtain ⟨rfl, hhead⟩ := hslash
              obtain ⟨more, rfl⟩ := List.head?_eq_some_iff.mp hhead
              obtain ⟨body, below, rfl, hbody, hbelow⟩ := exists_first_line more
              refine gap_comment hbody hbelow (ih _ ?_ below rfl)
              simp only [List.length_cons, List.length_append]
              omega
            · have hgap : gapLength false (c :: rest) = 0 := by
                rw [gapLength, if_neg Bool.false_ne_true, if_neg hblank, if_neg hslash]
              rw [hgap]
              exact .nil _

end Cursor

/-! ## One token after another -/

/-- The place after a token. -/
def Token.stop (t : Token) : Nat := t.start + t.length

/-- `t.Follows text before`: the token `t` is the next one of the text from the place `before`
on. -/
structure Token.Follows (t : Token) (text : List Char) (before : Nat) : Prop where
  before_le : before ≤ t.start
  stop_le : t.stop ≤ text.length
  gap : Gap (text.extract before t.start) (text.drop t.start)
  length_pos : t.kind ≠ .eof → 0 < t.length
  start_eof : t.kind = .eof → t.start = text.length
  lexeme : t.kind ≠ .fault → t.lexeme = String.ofList (text.extract t.start t.stop)
  line : t.line = 1 + (text.take t.stop).count '\n'

namespace Cursor

/-- The place of a text before which there are `n` characters. -/
def place (text : List Char) (n : Nat) : Cursor :=
  ⟨text.drop n, n, 1 + (text.take n).count '\n'⟩

theorem forward_place (text : List Char) (m n : Nat) :
    (place text m).forward n = place text (m + n) := by
  simp only [place, forward, List.drop_drop, List.take_add, List.count_append, Nat.add_assoc]

theorem place_zero (source : String) :
    ofSource source = place (source.toList.takeWhile (· ≠ '\x00')) 0 := rfl

theorem skip_place (text : List Char) (n : Nat) :
    (place text n).skip = place text (n + gapLength false (text.drop n)) :=
  forward_place ..

theorem gap_extract (text : List Char) (n : Nat) :
    Gap (text.extract n (n + gapLength false (text.drop n)))
      (text.drop (n + gapLength false (text.drop n))) := by
  rw [List.extract_eq_take_drop, Nat.add_sub_cancel_left, ← List.drop_drop]
  exact gap_gapLength _

theorem next_of_nil {c : Cursor} (h : c.skip.rest = []) :
    c.next = (Token.eof c.skip.position c.skip.line, c.skip) := by
  simp only [next, h]

theorem next_of_cons {c : Cursor} {first : Char} {more : List Char}
    (h : c.skip.rest = first :: more) :
    c.next = (c.skip.token (Lexeme.ofChars first more),
      c.skip.forward (Lexeme.ofChars first more).length) := by
  simp only [next, h]

theorem follows_eof {text : List Char} {n m : Nat} (hnm : n ≤ m) (hm : m ≤ text.length)
    (hrest : text.drop m = []) (hgap : Gap (text.extract n m) (text.drop m)) :
    (Token.eof m (place text m).line).Follows text n where
  before_le := hnm
  stop_le := hm
  gap := hgap
  length_pos := fun h => absurd rfl h
  start_eof := fun _ => Nat.le_antisymm hm (List.drop_eq_nil_iff.mp hrest)
  lexeme := fun _ => by
    show "" = String.ofList (text.extract m (m + 0))
    rw [List.extract_eq_take_drop, Nat.add_sub_cancel_left, List.take_zero]
  line := rfl

theorem kind_token_ne_eof (here : Cursor) (first : Char) (more : List Char) :
    (here.token (Lexeme.ofChars first more)).kind ≠ .eof := by
  unfold token
  cases hfound : (Lexeme.ofChars first more).kind with
  | ok k =>
      rintro rfl
      exact Lexeme.kind_ofChars_ne first more (.inr rfl) hfound
  | error wrong => exact Kind.noConfusion

theorem follows_token {text : List Char} {n m : Nat} {first : Char} {more : List Char}
    (hnm : n ≤ m) (hrest : text.drop m = first :: more)
    (hgap : Gap (text.extract n m) (text.drop m)) :
    ((place text m).token (Lexeme.ofChars first more)).Follows text n where
  before_le := hnm
  stop_le := by
    have hlength := congrArg List.length hrest
    have hle := Lexeme.length_ofChars_le first more
    rw [List.length_drop] at hlength
    show m + (Lexeme.ofChars first more).length ≤ text.length
    rw [List.length_cons] at hlength hle
    omega
  gap := hgap
  length_pos := fun _ => Lexeme.length_ofChars_pos first more
  start_eof := fun h => absurd h (kind_token_ne_eof _ first more)
  lexeme := by
    intro hkind
    show _ = String.ofList (text.extract m (m + (Lexeme.ofChars first more).length))
    rw [List.extract_eq_take_drop, Nat.add_sub_cancel_left]
    unfold token at hkind ⊢
    cases hfound : (Lexeme.ofChars first more).kind with
    | ok k => rfl
    | error wrong =>
        rw [hfound] at hkind
        exact absurd rfl hkind
  line := by
    show ((place text m).forward _).line = _
    rw [forward_place]
    rfl

/-- Reading at a place gives the next token of the text from there on, and leads to the place
after it. -/
theorem follows_next {text : List Char} {n : Nat} (hn : n ≤ text.length) :
    (place text n).next.1.Follows text n ∧
      (place text n).next.2 = place text (place text n).next.1.stop := by
  have hskip := skip_place text n
  have hgap := gap_extract text n
  have hnm := Nat.le_add_right n (gapLength false (text.drop n))
  have hm : n + gapLength false (text.drop n) ≤ text.length := by
    have hlength := gapLength_le (text.drop n) false
    rw [List.length_drop] at hlength
    omega
  generalize n + gapLength false (text.drop n) = m at hskip hgap hnm hm
  cases hrest : text.drop m with
  | nil =>
      have hnext := next_of_nil (c := place text n) (by rw [hskip]; exact hrest)
      rw [hnext, hskip]
      exact ⟨follows_eof hnm hm hrest hgap, rfl⟩
  | cons first more =>
      have hnext := next_of_cons (c := place text n) (by rw [hskip]; exact hrest)
      rw [hnext, hskip]
      exact ⟨follows_token hnm hrest hgap, forward_place ..⟩

/-- The place after `n` tokens. -/
def after (c : Cursor) : Nat → Cursor
  | 0 => c
  | n + 1 => c.next.2.after n

end Cursor

/-! ## All tokens -/

/-- `Tiled text n ts`: from the place `n` on, the text is made of the tokens `ts` and the gaps
before them.  The last token is the end, and no other one is. -/
inductive Tiled (text : List Char) : Nat → List Token → Prop
  | last {n : Nat} {t : Token} : t.Follows text n → t.kind = .eof → Tiled text n [t]
  | next {n : Nat} {t : Token} {ts : List Token} : t.Follows text n → t.kind ≠ .eof →
      Tiled text t.stop ts → Tiled text n (t :: ts)

namespace Tiled

variable {text : List Char} {n : Nat} {ts : List Token}

theorem follows (h : Tiled text n ts) :
    ∀ p ∈ (n :: ts.map Token.stop).zip ts, p.2.Follows text p.1 := by
  induction h with
  | last ht _ =>
      intro p hp
      rw [List.mem_singleton.mp hp]
      exact ht
  | next ht _ _ ih =>
      intro p hp
      rcases List.mem_cons.mp hp with rfl | hp
      · exact ht
      · exact ih p hp

theorem exists_follows (h : Tiled text n ts) :
    ∀ t ∈ ts, ∃ before, n ≤ before ∧ t.Follows text before := by
  induction h with
  | @last n t ht _ =>
      intro u hu
      rw [List.mem_singleton.mp hu]
      exact ⟨n, Nat.le_refl n, ht⟩
  | @next n t ts ht _ _ ih =>
      intro u hu
      rcases List.mem_cons.mp hu with rfl | hu
      · exact ⟨n, Nat.le_refl n, ht⟩
      · obtain ⟨before, hle, hu⟩ := ih u hu
        have hstop : t.start ≤ t.stop := Nat.le_add_right ..
        exact ⟨before, Nat.le_trans ht.before_le (Nat.le_trans hstop hle), hu⟩

/-- Tokens stand one after the other. -/
theorem pairwise (h : Tiled text n ts) : ts.Pairwise fun t u => t.stop ≤ u.start := by
  induction h with
  | last _ _ => exact List.pairwise_singleton _ _
  | next _ _ hrest ih =>
      refine List.pairwise_cons.mpr ⟨fun u hu => ?_, ih⟩
      obtain ⟨before, hle, hu⟩ := hrest.exists_follows u hu
      exact Nat.le_trans hle hu.before_le

theorem exists_last (h : Tiled text n ts) :
    ∃ before last, ts = before ++ [last] ∧ last.kind = .eof ∧ last.start = text.length ∧
      ∀ t ∈ before, t.kind ≠ .eof ∧ 0 < t.length := by
  induction h with
  | @last n t ht heof => exact ⟨[], t, rfl, heof, ht.start_eof heof, fun _ h => by cases h⟩
  | @next n t ts ht hne _ ih =>
      obtain ⟨before, last, rfl, heof, hstart, hbefore⟩ := ih
      refine ⟨t :: before, last, rfl, heof, hstart, fun u hu => ?_⟩
      rcases List.mem_cons.mp hu with rfl | hu
      · exact ⟨hne, ht.length_pos hne⟩
      · exact hbefore u hu

end Tiled

namespace TokenStream

theorem extract_of_isPrefix {xs ys : List Char} {m n : Nat} (h : xs <+: ys) (hn : n ≤ xs.length) :
    xs.extract m n = ys.extract m n := by
  obtain ⟨zs, rfl⟩ := h
  rw [List.extract_eq_take_drop, List.extract_eq_take_drop, ← List.drop_take, ← List.drop_take,
    List.take_append_of_le_length hn]

theorem ofCursor_of_nil {c : Cursor} (h : c.skip.rest = []) :
    ofCursor c = ⟨[], c.skip.position, c.skip.line⟩ := by
  rw [ofCursor, if_pos h]

theorem toList_of_nil {c : Cursor} (h : c.skip.rest = []) : (ofCursor c).toList = [c.next.1] := by
  rw [ofCursor_of_nil h, Cursor.next_of_nil h]
  rfl

theorem ofCursor_of_ne_nil {c : Cursor} (h : c.skip.rest ≠ []) :
    ofCursor c = { ofCursor c.next.2 with tokens := c.next.1 :: (ofCursor c.next.2).tokens } := by
  rw [ofCursor, if_neg h]

theorem toList_of_ne_nil {c : Cursor} (h : c.skip.rest ≠ []) :
    (ofCursor c).toList = c.next.1 :: (ofCursor c.next.2).toList := by
  rw [ofCursor_of_ne_nil h]
  rfl

theorem tiled_ofCursor {text : List Char} (c : Cursor) :
    ∀ n ≤ text.length, c = Cursor.place text n → Tiled text n (ofCursor c).toList := by
  induction c using ofCursor.induct with
  | case1 c hend =>
      intro n hn hc
      have hfollows := (Cursor.follows_next hn).1
      rw [toList_of_nil hend]
      refine .last (hc ▸ hfollows) ?_
      rw [Cursor.next_of_nil hend]
      rfl
  | case2 c hend ih =>
      intro n hn hc
      obtain ⟨hfollows, hplace⟩ := Cursor.follows_next hn
      rw [← hc] at hfollows hplace
      rw [toList_of_ne_nil hend]
      refine .next hfollows ?_ (ih _ hfollows.stop_le hplace)
      obtain ⟨first, more, hrest⟩ := List.exists_cons_of_ne_nil hend
      rw [Cursor.next_of_cons hrest]
      exact Cursor.kind_token_ne_eof _ first more

/-- At the end of a source nothing moves any more. -/
theorem ofCursor_next_of_nil {c : Cursor} (h : c.skip.rest = []) :
    ofCursor c.next.2 = ofCursor c := by
  have hstay : c.skip.skip = c.skip := by
    rw [Cursor.skip, h]
    simp [Cursor.forward, Cursor.gapLength]
  rw [Cursor.next_of_nil h, ofCursor_of_nil h, ofCursor_of_nil (by rw [hstay]; exact h), hstay]

/-- Calling the scanner again and again gives the tokens of the stream, and then its end. -/
theorem next_after (c : Cursor) (n : Nat) :
    (c.after n).next.1 = (ofCursor c).toList.getD n (ofCursor c).eof := by
  induction n generalizing c with
  | zero =>
      by_cases hend : c.skip.rest = []
      · rw [toList_of_nil hend]
        rfl
      · rw [toList_of_ne_nil hend]
        rfl
  | succ n ih =>
      show (c.next.2.after n).next.1 = _
      rw [ih]
      by_cases hend : c.skip.rest = []
      · rw [ofCursor_next_of_nil hend, ofCursor_of_nil hend]
        cases n with
        | zero => rfl
        | succ n => rfl
      · rw [toList_of_ne_nil hend, ofCursor_of_ne_nil hend, List.getD_cons_succ]
        rfl

/-- The tokens of a source and the gaps between them make up the text that is read, which is the
source up to its first NUL.  There is one end token, the last one, and it stays the answer to
every further call; every other token has at least one character.  Tokens stand one after the
other within the text; a token that is no fault has the characters of its place, and its line
counts the newlines before its end.  Before each token there is a gap. -/
theorem ofSource_partitions (source : String) :
    let text := source.toList.takeWhile (· ≠ '\x00')
    let tokens := (ofSource source).toList
    (∃ before last, tokens = before ++ [last] ∧ last.kind = .eof ∧ last.start = text.length ∧
      (∀ t ∈ before, t.kind ≠ .eof ∧ 0 < t.length) ∧
      ∀ n, ((Cursor.ofSource source).after n).next.1 = tokens.getD n last) ∧
    (tokens.Pairwise fun t u => t.stop ≤ u.start) ∧
    (∀ t ∈ tokens, t.stop ≤ text.length ∧
      (t.kind ≠ .fault → t.lexeme = String.ofList (source.toList.extract t.start t.stop)) ∧
      t.line = 1 + (source.toList.take t.stop).count '\n') ∧
    ∀ p ∈ (0 :: tokens.map Token.stop).zip tokens,
      Gap (text.extract p.1 p.2.start) (text.drop p.2.start) := by
  intro text tokens
  have htiled : Tiled text 0 tokens :=
    tiled_ofCursor _ 0 (Nat.zero_le _) (Cursor.place_zero source)
  have hpre : text <+: source.toList := List.takeWhile_prefix _
  refine ⟨?_, htiled.pairwise, ?_, fun p hp => (htiled.follows p hp).gap⟩
  · obtain ⟨before, last, htokens, heof, hstart, hbefore⟩ := htiled.exists_last
    have hlast : last = (ofSource source).eof := by
      have hgetLast := congrArg List.getLast? htokens
      simpa [tokens, toList] using hgetLast.symm
    refine ⟨before, last, htokens, heof, hstart, hbefore, fun n => ?_⟩
    rw [hlast]
    exact next_after _ n
  · intro t ht
    obtain ⟨_, _, hfollows⟩ := htiled.exists_follows t ht
    refine ⟨hfollows.stop_le, fun hkind => ?_, ?_⟩
    · rw [hfollows.lexeme hkind, extract_of_isPrefix hpre hfollows.stop_le]
    · rw [hfollows.line, List.prefix_iff_eq_take.mp hpre, List.take_take,
        Nat.min_eq_left hfollows.stop_le]

end TokenStream

end Reckon
