/-
Lines of a text.

A newline ends a line, and a carriage return right before it belongs to the line
end.  What follows the last newline is a line of its own only if it is not empty,
and then it keeps a carriage return at its end.
-/

namespace Reckon.Text

/-- The lines of a character list. -/
def lineChars : List Char → List (List Char)
  | [] => []
  | '\n' :: rest => [] :: lineChars rest
  | '\r' :: '\n' :: rest => [] :: lineChars rest
  | c :: rest =>
    match lineChars rest with
    | [] => [[c]]
    | line :: below => (c :: line) :: below

/-- The lines of a text. -/
def lines (s : String) : List String :=
  (lineChars s.toList).map String.ofList

end Reckon.Text
