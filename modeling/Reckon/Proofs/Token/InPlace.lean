/-
# What follows a NUL

A reader that works in place finds the tokens of a source one call at a time.  Its loops stop
at a NUL, and so it finds at every place what the scanner finds in the text up to the next NUL
(`next_eq_view`): the second character of a mark, the digits after a point, the closing quote
of a string are looked for in that text only.

Hence a NUL and all that follows it can be taken away from a source: neither a reader nor the
scanner, and then neither the compiler nor a run, can tell the difference (`nul_ends_source`).
-/
import Reckon.Proofs.Token.Reader
import Reckon.Run

namespace Reckon

namespace Reader

/-! ## Tokens in place -/

/-- Moves on if a given character is next. -/
def passMark (r : Reader) (c : Char) : Option Reader :=
  if r.peek ≠ '\x00' ∧ r.peek = c then some { r with position := r.position + 1 } else none

/-- A mark of one character, or of two if an equals sign follows, where the first one is
passed. -/
def mark (r : Reader) (double single : Kind) : Except Misspelling Kind × Reader :=
  match r.passMark '=' with
  | some after => (.ok double, after)
  | none => (.ok single, r)

/-- A string, where its opening quote is passed. -/
def string (r : Reader) : Except Misspelling Kind × Reader :=
  let stop := r.passQuoted
  if stop.peek = '\x00' then (.error .unterminatedString, stop) else (.ok .string, stop.advance)

/-- A number, where its first digit is passed. -/
def number (r : Reader) : Except Misspelling Kind × Reader :=
  let whole := r.passWhile Text.isDigit rfl
  if whole.peek = '.' ∧ Text.isDigit whole.peekNext = true then
    (.ok .number, whole.advance.passWhile Text.isDigit rfl)
  else (.ok .number, whole)

/-- A mark or a string that starts with the character `c`, which is passed. -/
def punctuation (r : Reader) (c : Char) : Except Misspelling Kind × Reader :=
  match c with
  | '(' => (.ok .leftParen, r)
  | ')' => (.ok .rightParen, r)
  | '{' => (.ok .leftBrace, r)
  | '}' => (.ok .rightBrace, r)
  | ';' => (.ok .semicolon, r)
  | ',' => (.ok .comma, r)
  | '.' => (.ok .dot, r)
  | '-' => (.ok .minus, r)
  | '+' => (.ok .plus, r)
  | '/' => (.ok .slash, r)
  | '*' => (.ok .star, r)
  | '!' => r.mark .bangEqual .bang
  | '=' => r.mark .equalEqual .equal
  | '<' => r.mark .lessEqual .less
  | '>' => r.mark .greaterEqual .greater
  | '"' => r.string
  | _ => (.error .unexpectedCharacter, r)

/-- The kind of the token here, or what is wrong with it, and the place after it. -/
def lexeme (here : Reader) : Except Misspelling Kind × Reader :=
  let c := here.peek
  let r := here.advance
  if Lexeme.isLetter c then
    let stop := r.passWhile Lexeme.isWordChar rfl
    (.ok (Lexeme.wordKind (here.upTo stop)), stop)
  else if Text.isDigit c then r.number
  else r.punctuation c

/-- Reads the next token. -/
def next (r : Reader) : Token × Reader :=
  let here := r.skip
  if here.peek = '\x00' then (Token.eof here.position here.line, here)
  else
    let (kind, stop) := here.lexeme
    (⟨match kind with
        | .ok kind => kind
        | .error _ => .fault,
      here.position, stop.position - here.position, stop.line,
      match kind with
        | .ok _ => String.ofList (here.upTo stop)
        | .error wrong => wrong.message⟩,
      stop)

/-- The place after `n` tokens. -/
def after (r : Reader) : Nat → Reader
  | 0 => r
  | n + 1 => r.next.2.after n

section
variable {r : Reader}

/-- `r.Finds passed found l`: the reader, after the `passed` characters of a lexeme, comes to the
kind and the end of the lexeme `l`. -/
structure Finds (r : Reader) (passed : Nat) (found : Except Misspelling Kind × Reader)
    (l : Lexeme) : Prop where
  kind : found.1 = l.kind
  moves : ∃ n, r.Moves n found.2 ∧ l.length = passed + n

theorem finds_here (r : Reader) (passed : Nat) (kind : Except Misspelling Kind) :
    r.Finds passed (kind, r) ⟨kind, passed⟩ :=
  ⟨rfl, 0, .refl r, rfl⟩

theorem finds_mark (r : Reader) (double single : Kind) :
    r.Finds 1 (r.mark double single) (Lexeme.mark r.view.rest double single) := by
  unfold mark passMark
  split
  · next after hafter =>
    split at hafter
    · next hpeek =>
      obtain ⟨more, hrest⟩ := exists_cons_of_peek hpeek.1
      have hmoves := moves_advance hrest (by rw [hpeek.2]; decide)
      rw [advance, if_neg hpeek.1, Option.some.inj hafter] at hmoves
      rw [hrest, hpeek.2]
      exact ⟨rfl, 1, hmoves, rfl⟩
    · cases hafter
  · next hnone =>
    split at hnone
    · cases hnone
    · next hpeek =>
      have hsingle : Lexeme.mark r.view.rest double single = ⟨.ok single, 1⟩ := by
        unfold Lexeme.mark
        split
        · next hrest =>
          obtain ⟨heq, hne⟩ := r.peek_of_cons hrest
          exact absurd ⟨heq ▸ hne, heq⟩ hpeek
        · rfl
      rw [hsingle]
      exact finds_here r 1 _

theorem finds_string (r : Reader) : r.Finds 1 r.string (Lexeme.string r.view.rest) := by
  have hbody := moves_passQuoted (r := r)
  have hafter : r.passQuoted.view.rest = r.view.rest.dropWhile (· ≠ '"') := by
    rw [hbody.rest, Lexeme.drop_length_takeWhile]
  have hlength : (r.view.rest.takeWhile (· ≠ '"')).length +
      (r.view.rest.dropWhile (· ≠ '"')).length = r.view.rest.length := by
    rw [← List.length_append, List.takeWhile_append_dropWhile]
  unfold string Lexeme.string
  simp only
  cases hrest : r.view.rest.dropWhile (· ≠ '"') with
  | nil =>
      rw [hrest, List.length_nil, Nat.add_zero] at hlength
      rw [if_pos (r.passQuoted.peek_eq_nul_iff.mpr (hafter.trans hrest)), if_neg (by omega)]
      exact ⟨rfl, _, hbody, by rw [hlength]; exact Nat.add_comm _ _⟩
  | cons c more =>
      have hquote : c = '"' := by
        have hhead := List.head?_dropWhile_not (fun x => decide (x ≠ '"')) r.view.rest
        rw [hrest] at hhead
        simpa using hhead
      have hpeek := r.passQuoted.peek_of_cons (hafter.trans hrest)
      have hclose := moves_advance (hafter.trans hrest) (by rw [hquote]; decide)
      rw [hrest, List.length_cons] at hlength
      rw [if_neg (by rw [hpeek.1]; exact hpeek.2), if_pos (by omega)]
      exact ⟨rfl, _, hbody.trans hclose, by simp only; omega⟩

theorem finds_number (r : Reader) : r.Finds 1 r.number (Lexeme.number r.view.rest) := by
  have hwhole := moves_passWhile (r := r) (p := Text.isDigit) rfl rfl
  have hlength : Lexeme.number r.view.rest =
      ⟨.ok .number, 1 + ((r.view.rest.takeWhile Text.isDigit).length +
        Lexeme.fractionLength (r.passWhile Text.isDigit rfl).view.rest)⟩ := by
    rw [hwhole.rest, ← Nat.add_assoc]
    rfl
  rw [hlength]
  unfold number
  simp only
  generalize r.passWhile Text.isDigit rfl = whole at hwhole ⊢
  split
  · next h =>
    obtain ⟨more, hrest⟩ := exists_cons_of_peek (r := whole) (by rw [h.1]; decide)
    have hpoint := moves_advance hrest (by rw [h.1]; decide)
    have hdigits := moves_passWhile (r := whole.advance) (p := Text.isDigit) rfl rfl
    refine ⟨rfl, _, hwhole.trans (hpoint.trans hdigits), ?_⟩
    have hmore : whole.advance.view.rest = more := by rw [hpoint.rest, hrest]; rfl
    have hnext := whole.peekNext_of_cons hrest
    rw [hmore, hrest, h.1]
    cases more with
    | nil =>
        rw [hnext] at h
        exact absurd h.2 (by decide)
    | cons d rest =>
        have hd : Text.isDigit d = true := by
          have hdigit := h.2
          rw [hnext] at hdigit
          exact hdigit
        rw [Lexeme.fractionLength, if_pos hd, List.takeWhile_cons_of_pos hd, List.length_cons]
        simp only
        omega
  · next h =>
    have hnone : Lexeme.fractionLength whole.view.rest = 0 := by
      unfold Lexeme.fractionLength
      split
      · next d rest hrest =>
        rw [(whole.peek_of_cons hrest).1, whole.peekNext_of_cons hrest] at h
        exact if_neg fun hd => h ⟨rfl, hd⟩
      · rfl
    exact ⟨rfl, _, hwhole, by rw [hnone]; rfl⟩

theorem finds_punctuation (r : Reader) (c : Char) :
    r.Finds 1 (r.punctuation c) (Lexeme.punctuation c r.view.rest) := by
  unfold punctuation
  split
  case h_12 | h_13 | h_14 | h_15 => exact finds_mark r _ _
  case h_16 => exact finds_string r
  case h_17 =>
    have hwrong : Lexeme.punctuation c r.view.rest = ⟨.error .unexpectedCharacter, 1⟩ := by
      unfold Lexeme.punctuation
      split
      case h_17 => rfl
      all_goals contradiction
    rw [hwrong]
    exact finds_here r 1 _
  all_goals exact finds_here r 1 _

/-- The token that a reader finds is the lexeme at the head of its view. -/
theorem finds_lexeme {first : Char} {more : List Char} (h : r.view.rest = first :: more)
    (hfirst : first ≠ '\n') :
    r.Finds 0 r.lexeme (Lexeme.ofChars first more) := by
  have hadvance := moves_advance h hfirst
  have hmore : r.advance.view.rest = more := by rw [hadvance.rest, h]; rfl
  have hfinds {found : Except Misspelling Kind × Reader} {l : Lexeme}
      (hfound : r.advance.Finds 1 found l) : r.Finds 0 found l := by
    obtain ⟨hkind, n, hmoves, hlength⟩ := hfound
    exact ⟨hkind, 1 + n, hadvance.trans hmoves, by rw [hlength, Nat.zero_add]⟩
  unfold lexeme Lexeme.ofChars
  simp only [(r.peek_of_cons h).1]
  split
  · have hword := moves_passWhile (r := r.advance) (p := Lexeme.isWordChar) rfl rfl
    rw [hmore] at hword
    have hmoves := hadvance.trans hword
    refine ⟨?_, _, hmoves, ?_⟩
    · rw [hmoves.upTo, h, Nat.add_comm, List.take_succ_cons, Lexeme.take_length_takeWhile]
      rfl
    · rw [Nat.zero_add, Nat.add_comm]
      rfl
  · split
    · rw [← hmore]
      exact hfinds (finds_number r.advance)
    · rw [← hmore]
      exact hfinds (finds_punctuation r.advance first)

/-- Reading in place finds the token that the scanner finds in the view, and comes to the place
to which the scanner comes. -/
theorem next_eq_view (r : Reader) : r.next.1 = r.view.next.1 ∧ r.next.2.view = r.view.next.2 := by
  have hskip : r.skip.view = r.view.skip := moves_skip.view
  unfold next
  simp only
  cases hrest : r.skip.view.rest with
  | nil =>
      rw [if_pos (r.skip.peek_eq_nul_iff.mpr hrest), Cursor.next_of_nil (hskip ▸ hrest), ← hskip]
      exact ⟨rfl, rfl⟩
  | cons first more =>
      obtain ⟨hpeek, hne⟩ := r.skip.peek_of_cons hrest
      have hblank : Cursor.isBlank first = false :=
        Cursor.isBlank_of_drop_gapLength r.view.rest false (by rw [← moves_skip.rest]; exact hrest)
      obtain ⟨hkind, n, hmoves, hlength⟩ := finds_lexeme hrest (by rintro rfl; cases hblank)
      rw [Nat.zero_add] at hlength
      rw [if_neg (by rw [hpeek]; exact hne), Cursor.next_of_cons (hskip ▸ hrest), ← hskip,
        hlength, ← hmoves.view]
      refine ⟨?_, rfl⟩
      simp only [Cursor.token, hlength, ← hmoves.view, hkind, hmoves.upTo, hmoves.position,
        Nat.add_sub_cancel_left]
      rfl

theorem view_after (r : Reader) (n : Nat) : (r.after n).view = r.view.after n := by
  induction n generalizing r with
  | zero => rfl
  | succ n ih =>
      show (r.next.2.after n).view = r.view.next.2.after n
      rw [ih, (next_eq_view r).2]

end

end Reader

/-! ## What follows a NUL -/

theorem takeWhile_append_nul (cs rest : List Char) :
    (cs ++ '\x00' :: rest).takeWhile (· ≠ '\x00') = cs.takeWhile (· ≠ '\x00') := by
  induction cs with
  | nil => rfl
  | cons c more ih =>
      rw [List.cons_append, List.takeWhile_cons, List.takeWhile_cons, ih]

theorem Cursor.ofSource_append_nul (s t : String) :
    Cursor.ofSource (s ++ "\x00" ++ t) = Cursor.ofSource s := by
  have hchars : (s ++ "\x00" ++ t).toList = s.toList ++ '\x00' :: t.toList := by
    simp [String.toList_append]
  simp only [Cursor.ofSource, hchars, takeWhile_append_nul]

/-- At the beginning a reader sees what the scanner is given. -/
theorem Reader.view_ofSource (source : String) :
    (Reader.ofSource source).view = Cursor.ofSource source := by
  simp only [Reader.view, Reader.ofSource, Cursor.ofSource, List.drop_zero, takeWhile_append_nul]

/-- Every call on a reader of a source is answered with the token that the scanner finds. -/
theorem Reader.next_after (source : String) (n : Nat) :
    ((Reader.ofSource source).after n).next.1 =
      (TokenStream.ofSource source).toList.getD n (TokenStream.ofSource source).eof := by
  rw [(Reader.next_eq_view _).1, Reader.view_after, Reader.view_ofSource]
  exact TokenStream.next_after _ n

/-- A text with a NUL and any other text after it behaves as the text alone.  Read in place, call
after call, it gives the same tokens with their places and lines, and after them the same end
however often it is asked for.  The scanner finds the same tokens and lists them alike.
Compiling and running the text gives the same result, the same texts and the same notes, under
all options and on every console. -/
theorem nul_ends_source (s t : String) :
    (∀ n, ((Reader.ofSource (s ++ "\x00" ++ t)).after n).next.1 =
      ((Reader.ofSource s).after n).next.1) ∧
    (∀ n, ((Reader.ofSource (s ++ "\x00" ++ t)).after n).next.1 =
      (TokenStream.ofSource s).toList.getD n (TokenStream.ofSource s).eof) ∧
    TokenStream.ofSource (s ++ "\x00" ++ t) = TokenStream.ofSource s ∧
    (TokenStream.ofSource (s ++ "\x00" ++ t)).listing = (TokenStream.ofSource s).listing ∧
    (TokenStream.ofSource (s ++ "\x00" ++ t)).size = (TokenStream.ofSource s).size ∧
    ∀ o, compile o (s ++ "\x00" ++ t) = compile o s ∧
      runSource o (s ++ "\x00" ++ t) = runSource o s ∧
      ∀ console : Console, console.run o (s ++ "\x00" ++ t) = console.run o s := by
  generalize hlonger : s ++ "\x00" ++ t = longer
  have hstream : TokenStream.ofSource longer = TokenStream.ofSource s :=
    congrArg TokenStream.ofCursor (hlonger ▸ Cursor.ofSource_append_nul s t)
  have hanswers : ∀ n, ((Reader.ofSource longer).after n).next.1 =
      (TokenStream.ofSource s).toList.getD n (TokenStream.ofSource s).eof := by
    intro n
    rw [Reader.next_after, hstream]
  have hcompile : ∀ o, compile o longer = compile o s := by
    intro o
    -- The compiler knows a source by its tokens only.
    have hstart : Compile.State.start longer = Compile.State.start s := by
      simp only [Compile.State.start, hstream]
    unfold compile Compile.State.finish
    rw [hstart]
  have hrun : ∀ o, runSource o longer = runSource o s := by
    intro o
    simp only [runSource, compileSource, listTokens, hcompile, hstream]
  refine ⟨fun n => ?_, hanswers, hstream, ?_, ?_, fun o => ⟨hcompile o, hrun o, fun console => ?_⟩⟩
  · rw [hanswers, Reader.next_after]
  · rw [hstream]
  · rw [hstream]
  · simp only [Console.run, hrun]

end Reckon
