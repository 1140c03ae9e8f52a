/-
Outlines: nested records and lists of texts, printed on one line or indented.

Indented, every field and every item stands on a line of its own, four blanks further
in than its parent and with a comma after it; an empty list stays closed.
-/
import Reckon.Text.Column

namespace Reckon.Text

/-- A text, a list of outlines or a record with named fields. -/
inductive Outline where
  | leaf (text : String)
  | list (items : List Outline)
  | record (name : String) (fields : List (String × Outline))

namespace Outline

mutual

/-- The outline on one line. -/
def flat : Outline → String
  | leaf text => text
  | list items => "[" ++ joined ", " (flatItems items) ++ "]"
  | record name fields => name ++ " \x7b " ++ joined ", " (flatFields fields) ++ " \x7d"

/-- The items of a list, each on one line. -/
def flatItems : List Outline → List String
  | [] => []
  | item :: rest => item.flat :: flatItems rest

/-- The fields of a record, each on one line. -/
def flatFields : List (String × Outline) → List String
  | [] => []
  | (name, value) :: rest => (name ++ ": " ++ value.flat) :: flatFields rest

end

mutual

/-- The outline over several lines, of which all but the first start with `margin`. -/
def indented (margin : String) : Outline → String
  | leaf text => text
  | list [] => "[]"
  | list (item :: rest) => "[\n" ++ indentedItems margin (item :: rest) ++ margin ++ "]"
  | record name fields =>
    name ++ " \x7b\n" ++ indentedFields margin fields ++ margin ++ "\x7d"

/-- The items of a list, one level further in. -/
def indentedItems (margin : String) : List Outline → String
  | [] => ""
  | item :: rest =>
    let inner := margin ++ "    "
    inner ++ item.indented inner ++ ",\n" ++ indentedItems margin rest

/-- The fields of a record, one level further in. -/
def indentedFields (margin : String) : List (String × Outline) → String
  | [] => ""
  | (name, value) :: rest =>
    let inner := margin ++ "    "
    inner ++ name ++ ": " ++ value.indented inner ++ ",\n" ++ indentedFields margin rest

end

/-- The outline on one line or, if `pretty`, over several. -/
def text (pretty : Bool) (o : Outline) : String :=
  if pretty then o.indented "" else o.flat

end Outline

end Reckon.Text
