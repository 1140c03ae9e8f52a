/-
Reading a number from a source: digits, with or without a point among them.
-/
import Reckon.Decimal.Double
import Reckon.Text.Numeral

namespace Reckon.Decimal

/-- The double nearest to the number that a text of the form `12` or `12.5` denotes. -/
def read (s : String) : Float :=
  let whole := s.toList.takeWhile Text.isDigit
  let fraction := (s.toList.drop whole.length).filter Text.isDigit
  toFloat (Text.digitsValue (whole ++ fraction)) fraction.length

/-- Whether a text has the form `12` or `12.5`. -/
def isNumeral (s : String) : Bool :=
  let whole := s.toList.takeWhile Text.isDigit
  !whole.isEmpty &&
    match s.toList.drop whole.length with
    | [] => true
    | '.' :: fraction => !fraction.isEmpty && fraction.all Text.isDigit
    | _ => false

/-- The number that a text denotes, if the text has the form of a number. -/
def read? (s : String) : Option Float :=
  if isNumeral s then some (read s) else none

theorem read?_of_isNumeral {s : String} (h : isNumeral s = true) : read? s = some (read s) :=
  if_pos h

theorem eq_read_of_read? {s : String} {value : Float} (h : read? s = some value) :
    value = read s := by
  unfold read? at h
  split at h
  · exact (Option.some.inj h).symm
  · cases h

end Reckon.Decimal
