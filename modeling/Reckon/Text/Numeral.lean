/-
Numerals: whole numbers written in decimal, as they stand in an option or in the
name of an output.  They are bounded by what a machine word holds.
-/

namespace Reckon.Text

/-- The largest number of a machine word. -/
def wordMax : Nat := UInt64.size - 1

/-- An ASCII digit. -/
def isDigit (c : Char) : Bool :=
  '0' ≤ c && c ≤ '9'

/-- The number that a run of digits denotes. -/
def digitsValue (ds : List Char) : Nat :=
  ds.foldl (fun n d => 10 * n + (d.toNat - 48)) 0

/-- Reads a whole text as digits; an empty run denotes nothing. -/
def digits? (ds : List Char) : Option Nat :=
  if !ds.isEmpty && ds.all isDigit then some (digitsValue ds) else none

/-- Reads a machine word: digits after an optional plus sign. -/
def word? (s : String) : Option Nat :=
  let ds := match s.toList with
    | '+' :: rest => rest
    | cs => cs
  (digits? ds).filter (· ≤ wordMax)

end Reckon.Text

/-- The largest size of anything in memory, in bytes. -/
def Reckon.sizeMax : Nat := Text.wordMax / 2
