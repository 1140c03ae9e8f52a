/-
Lexemes: how far the token at the head of a text reaches, and what it is.

A lexeme is the longest match.  Words are letters, underscores and digits, starting
with no digit; numbers are digits, with a point only if a digit follows it; a string
runs to the next double quote.
-/
import Reckon.Text.Numeral
import Reckon.Token.Kind

namespace Reckon

/-- Why a piece of text is no token. -/
inductive Misspelling where
  | unterminatedString
  | unexpectedCharacter
deriving DecidableEq, Repr

/-- The complaint about a misspelling. -/
def Misspelling.message : Misspelling → String
  | unterminatedString => "Unterminated string."
  | unexpectedCharacter => "Unexpected character."

/-- The token at the head of a text: its kind, or what is wrong with it, and its number of
characters. -/
structure Lexeme where
  kind : Except Misspelling Kind
  length : Nat

namespace Lexeme

/-- An ASCII letter or an underscore. -/
def isLetter (c : Char) : Bool :=
  ('a' ≤ c && c ≤ 'z') || ('A' ≤ c && c ≤ 'Z') || c = '_'

/-- A character that can continue a word. -/
def isWordChar (c : Char) : Bool :=
  isLetter c || Text.isDigit c

/-- The kind of a word. -/
def wordKind (word : List Char) : Kind :=
  match Keyword.ofSpelling? (String.ofList word) with
  | some k => .keyword k
  | none => .identifier

/-- A word with the letter `c` before the text `rest`. -/
def word (c : Char) (rest : List Char) : Lexeme :=
  let spelled := c :: rest.takeWhile isWordChar
  ⟨.ok (wordKind spelled), spelled.length⟩

/-- The number of characters of a fraction at the head of a text: a point and at least one
digit. -/
def fractionLength : List Char → Nat
  | '.' :: d :: rest => if Text.isDigit d then 2 + (rest.takeWhile Text.isDigit).length else 0
  | _ => 0

/-- A number with a first digit before the text `rest`. -/
def number (rest : List Char) : Lexeme :=
  let whole := rest.takeWhile Text.isDigit
  ⟨.ok .number, 1 + whole.length + fractionLength (rest.drop whole.length)⟩

/-- A string with its opening quote before the text `rest`. -/
def string (rest : List Char) : Lexeme :=
  let body := rest.takeWhile (· ≠ '"')
  if body.length < rest.length then ⟨.ok .string, body.length + 2⟩
  else ⟨.error .unterminatedString, rest.length + 1⟩

/-- A mark of one character, or of two if an equals sign follows. -/
def mark (rest : List Char) (double single : Kind) : Lexeme :=
  match rest with
  | '=' :: _ => ⟨.ok double, 2⟩
  | _ => ⟨.ok single, 1⟩

/-- A mark or a string that starts with the character `c`. -/
def punctuation (c : Char) (rest : List Char) : Lexeme :=
  match c with
  | '(' => ⟨.ok .leftParen, 1⟩
  | ')' => ⟨.ok .rightParen, 1⟩
  | '{' => ⟨.ok .leftBrace, 1⟩
  | '}' => ⟨.ok .rightBrace, 1⟩
  | ';' => ⟨.ok .semicolon, 1⟩
  | ',' => ⟨.ok .comma, 1⟩
  | '.' => ⟨.ok .dot, 1⟩
  | '-' => ⟨.ok .minus, 1⟩
  | '+' => ⟨.ok .plus, 1⟩
  | '/' => ⟨.ok .slash, 1⟩
  | '*' => ⟨.ok .star, 1⟩
  | '!' => mark rest .bangEqual .bang
  | '=' => mark rest .equalEqual .equal
  | '<' => mark rest .lessEqual .less
  | '>' => mark rest .greaterEqual .greater
  | '"' => string rest
  | _ => ⟨.error .unexpectedCharacter, 1⟩

/-- The lexeme at the head of the text `c :: rest`. -/
def ofChars (c : Char) (rest : List Char) : Lexeme :=
  if isLetter c then word c rest
  else if Text.isDigit c then number rest
  else punctuation c rest

/-- A lexeme has at least one character. -/
theorem length_ofChars_pos (c : Char) (rest : List Char) : 0 < (ofChars c rest).length := by
  unfold ofChars
  split
  · simp [word]
  · split
    · simp only [number]
      omega
    · unfold punctuation
      split <;> simp [mark, string] <;> split <;> simp

end Lexeme

end Reckon
