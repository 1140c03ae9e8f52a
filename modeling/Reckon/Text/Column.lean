/-
Columns: fixed-width fields of a printed row.

A field narrower than its column is filled up, a wider one is printed whole and
pushes the rest of the row to the right.  The width of a text is its number of
characters.
-/

namespace Reckon.Text

/-- The text `c` repeated `n` times. -/
def fill (c : Char) (n : Nat) : String :=
  String.ofList (List.replicate n c)

/-- The text set flush right in a column. -/
def flushRight (width : Nat) (s : String) : String :=
  fill ' ' (width - s.length) ++ s

/-- The text set flush left in a column. -/
def flushLeft (width : Nat) (s : String) : String :=
  s ++ fill ' ' (width - s.length)

/-- The text set in the middle of a column; an odd blank goes to the right. -/
def centered (width : Nat) (s : String) : String :=
  let gap := width - s.length
  fill ' ' (gap / 2) ++ s ++ fill ' ' (gap - gap / 2)

/-- A number written with at least `width` digits. -/
def zeroFilled (width n : Nat) : String :=
  let digits := toString n
  fill '0' (width - digits.length) ++ digits

/-- Texts set one after another with a separator between them. -/
def joined (separator : String) : List String → String
  | [] => ""
  | [s] => s
  | s :: rest => s ++ separator ++ joined separator rest

/-- Rows of text, each closed by a newline. -/
def rows (lines : List String) : String :=
  lines.foldr (fun row below => row ++ "\n" ++ below) ""

end Reckon.Text
