/-
Number text.

A double is written with the digits of its shortest decimal.  Two layouts are in use.
The plain one never has an exponent and writes whole numbers without a point.  The
exact one, used where a number must be recognisable as one, keeps a point and turns to
an exponent for very large and very small numbers.
-/
import Reckon.Decimal.Shortest
import Reckon.Text.Column

namespace Reckon.Decimal

/-- The decisions of a number format. -/
structure Layout where
  /-- Whether a whole number ends in a point and a zero. -/
  keepPoint : Bool
  /-- The positions of the leading digit (1 for units) that are written without an
  exponent; all positions if absent. -/
  positional : Option (Int × Int)

/-- Plain text: `3`, `-0`, `0.00001`. -/
def Layout.plain : Layout := ⟨false, none⟩

/-- Exact text: `3.0`, `-0.0`, `1e-5`; positional from `0.0001` up to below `10 ^ 16`. -/
def Layout.exact : Layout := ⟨true, some (-3, 16)⟩

/-- Digits with a point after the first `point` of them. -/
def withPoint (keepPoint : Bool) (digits : String) (point : Int) : String :=
  if point ≤ 0 then "0." ++ Text.fill '0' (-point).toNat ++ digits
  else if digits.length ≤ point.toNat then
    digits ++ Text.fill '0' (point.toNat - digits.length) ++ (if keepPoint then ".0" else "")
  else
    String.ofList (digits.toList.take point.toNat) ++ "."
      ++ String.ofList (digits.toList.drop point.toNat)

/-- Digits with a point after the first of them and an exponent. -/
def scientific (digits : String) (point : Int) : String :=
  let exponent := "e" ++ toString (point - 1)
  match digits.toList with
  | d :: e :: rest => String.ofList (d :: '.' :: e :: rest) ++ exponent
  | _ => digits ++ exponent

/-- The digits of a scaled number in a layout. -/
def Layout.digits (l : Layout) (d : Scaled) : String :=
  if d.coefficient = 0 then (if l.keepPoint then "0.0" else "0")
  else
    let digits := toString d.coefficient
    let point := (digits.length : Int) + d.exponent
    match l.positional with
    | none => withPoint l.keepPoint digits point
    | some (least, most) =>
      if least ≤ point && point ≤ most then withPoint l.keepPoint digits point
      else scientific digits point

/-- The text of a double in a layout. -/
def Layout.text (l : Layout) (x : Float) : String :=
  let sign (negative : Bool) := if negative then "-" else ""
  match Double.ofFloat x with
  | .nan => "NaN"
  | .infinite negative => sign negative ++ "inf"
  | .finite negative m q => sign negative ++ l.digits (shortest m q)

end Reckon.Decimal
