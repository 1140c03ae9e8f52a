/-
The token listing: one row for each token of a source, under a heading.

A row shows the token's line, or a bar if that is the line of the row above, then the
kind and the lexeme.
-/
import Reckon.Text.Column
import Reckon.Token.Basic

namespace Reckon.TokenStream

/-- The heading of the listing. -/
def listingHeading : String :=
  Text.flushLeft 4 "line" ++ " " ++ Text.flushLeft 14 "type" ++ " lexeme"

/-- The row of a token below a row of line `above`. -/
def listingRow (above : Option Nat) (t : Token) : String :=
  (if above = some t.line then "   | " else Text.flushRight 4 (toString t.line) ++ " ")
    ++ Text.flushLeft 14 t.kind.name ++ " '" ++ t.lexeme ++ "'"

/-- The rows of the listing below a row of line `above`. -/
def listingRows (above : Option Nat) : List Token → List String
  | [] => []
  | t :: rest => listingRow above t :: listingRows (some t.line) rest

/-- The listing of a source's tokens. -/
def listing (s : TokenStream) : String :=
  Text.rows (listingHeading :: listingRows none s.toList)

/-- The number of rows below the heading. -/
def size (s : TokenStream) : Nat :=
  s.tokens.length + 1

end Reckon.TokenStream
