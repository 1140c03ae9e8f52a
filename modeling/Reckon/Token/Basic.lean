/-
Tokens and the scanner.

A source is read from left to right.  Blanks and comments separate tokens and are
skipped; a comment runs from two slashes to the end of its line.  The character NUL
ends the source wherever it stands, so only the text before it is read.  Each token
carries its place: where it starts, how many characters it has and the line on which
it ends.
-/
import Reckon.Token.Lexeme

namespace Reckon

/-- A token.  For a fault the lexeme is the complaint, for every other kind the characters
of the token. -/
structure Token where
  kind : Kind
  start : Nat
  length : Nat
  line : Nat
  lexeme : String
deriving DecidableEq, Repr

/-- The token that marks the end of a source. -/
def Token.eof (start line : Nat) : Token :=
  ⟨.eof, start, 0, line, ""⟩

/-- A place in a source: the text still to be read, the number of characters read and the
current line. -/
structure Cursor where
  rest : List Char
  position : Nat
  line : Nat
deriving DecidableEq, Repr

namespace Cursor

/-- The place before the first character. -/
def ofSource (source : String) : Cursor :=
  ⟨source.toList.takeWhile (· ≠ '\x00'), 0, 1⟩

/-- The place `n` characters further on. -/
def forward (c : Cursor) (n : Nat) : Cursor :=
  ⟨c.rest.drop n, c.position + n, c.line + (c.rest.take n).count '\n'⟩

/-- A character that separates tokens. -/
def isBlank (c : Char) : Bool :=
  c = ' ' || c = '\r' || c = '\t' || c = '\n'

/-- The number of characters of the blanks and comments at the head of a text, which itself
may start inside a comment. -/
def gapLength (inComment : Bool) : List Char → Nat
  | [] => 0
  | c :: rest =>
    if inComment then gapLength (c ≠ '\n') rest + 1
    else if isBlank c then gapLength false rest + 1
    else if c = '/' ∧ rest.head? = some '/' then gapLength true rest + 1
    else 0

/-- The place after the blanks and comments. -/
def skip (c : Cursor) : Cursor :=
  c.forward (gapLength false c.rest)

/-- The token with a given lexeme at a place. -/
def token (here : Cursor) (found : Lexeme) : Token where
  kind := match found.kind with
    | .ok kind => kind
    | .error _ => .fault
  start := here.position
  length := found.length
  line := (here.forward found.length).line
  lexeme := match found.kind with
    | .ok _ => String.ofList (here.rest.take found.length)
    | .error wrong => wrong.message

/-- Reads the next token.  At the end of the source that is the end token, however often it
is asked for. -/
def next (c : Cursor) : Token × Cursor :=
  match c.skip.rest with
  | [] => (Token.eof c.skip.position c.skip.line, c.skip)
  | first :: more =>
    let found := Lexeme.ofChars first more
    (c.skip.token found, c.skip.forward found.length)

theorem length_rest_skip_le (c : Cursor) : c.skip.rest.length ≤ c.rest.length := by
  simp [skip, forward]

/-- Short of the end of the source, reading a token leaves less to read. -/
theorem length_rest_next_lt {c : Cursor} (h : c.skip.rest ≠ []) :
    c.next.2.rest.length < c.rest.length := by
  have hskip := length_rest_skip_le c
  unfold next
  split
  · contradiction
  · next first more hrest =>
    have hpos := Lexeme.length_ofChars_pos first more
    simp only [forward, List.length_drop, hrest, List.length_cons] at hskip ⊢
    omega

end Cursor

/-- The tokens of a source: those before the end, and the place of the end. -/
structure TokenStream where
  tokens : List Token
  endPosition : Nat
  endLine : Nat
deriving DecidableEq, Repr

namespace TokenStream

/-- The tokens from a place on. -/
def ofCursor (c : Cursor) : TokenStream :=
  if c.skip.rest = [] then ⟨[], c.skip.position, c.skip.line⟩
  else
    let following := ofCursor c.next.2
    { following with tokens := c.next.1 :: following.tokens }
termination_by c.rest.length
decreasing_by exact Cursor.length_rest_next_lt (by assumption)

/-- The tokens of a source. -/
def ofSource (source : String) : TokenStream :=
  ofCursor (Cursor.ofSource source)

/-- The end token of the stream. -/
def eof (s : TokenStream) : Token :=
  Token.eof s.endPosition s.endLine

/-- All tokens, the end token last. -/
def toList (s : TokenStream) : List Token :=
  s.tokens ++ [s.eof]

end TokenStream

end Reckon
