/-
Source context: the lines around an error, with the line of the error marked.
-/
import Reckon.Failure
import Reckon.Text.Lines

namespace Reckon

/-- How many lines are shown before and after the line of an error. -/
def contextReach : Nat := 2

/-- The row of one line in a context whose line numbers have `width` digits at most. -/
def contextRow (width marked number : Nat) (text : String) : String :=
  (if number = marked then ">" else " ") ++ " " ++ Text.flushRight width (toString number)
    ++ " | " ++ text

/-- The rows around a line of a source; none if the source has no such line. -/
def contextRows (source : String) (line : Nat) : List String :=
  let lines := Text.lines source
  if line = 0 ∨ lines.length < line then []
  else
    let first := max (line - contextReach) 1
    let last := min (line + contextReach) lines.length
    let width := (toString last).length
    ((lines.take last).zipIdx 1).drop (first - 1) |>.map fun (text, number) =>
      contextRow width line number text

/-- What is shown of a failure besides its diagnostics: the source around it, or the report
if it has no place in the source. -/
def Failure.contextRows (f : Failure) (source : String) : List String :=
  match f with
  | compile _ | runtime _ =>
    match f.line? with
    | some line => Reckon.contextRows source line
    | none => []
  | settings _ | uninitialized => ["❌ " ++ f.report.text]

end Reckon
