/-
Rings: the last records of a log.

A ring keeps as many records as its capacity says, the oldest first, and counts those
that it had to let go.  Room for all of them is set aside when the ring is made, so that no
ring can be made for more records than could ever be in memory.
-/
import Reckon.Log.Record
import Reckon.Text.Numeral

namespace Reckon

/-- Whether a text occurs in another one. -/
def Text.occursIn (needle : List Char) : List Char → Bool
  | [] => needle.isEmpty
  | c :: rest => needle.isPrefixOf (c :: rest) || occursIn needle rest

/-- The newest records, oldest first, and the number of records let go. -/
structure Ring where
  capacity : Nat
  records : Array Record
  dropped : Nat

namespace Ring

/-- A ring without records. -/
def empty (capacity : Nat) : Ring := ⟨capacity, #[], 0⟩

/-- The most records that could be in memory. -/
def most : Nat := sizeMax / Record.size

/-- Makes a ring, unless its records could never be in memory. -/
def new? (capacity : Nat) : Option Ring :=
  if capacity ≤ most then some (empty capacity) else none

/-- The number of records in the ring. -/
def size (r : Ring) : Nat := r.records.size

/-- Adds a record; a full ring lets its oldest one go, and a ring without room the new one. -/
def write (r : Ring) (record : Record) : Ring :=
  if r.records.size < r.capacity then { r with records := r.records.push record }
  else if r.records.isEmpty then { r with dropped := r.dropped + 1 }
  else
    { r with
      records := (r.records.extract 1 r.records.size).push record
      dropped := r.dropped + 1 }

/-- Forgets all records and the number of those let go. -/
def clear (r : Ring) : Ring := empty r.capacity

/-- The words of the records. -/
def messages (r : Ring) : List String := r.records.toList.map Record.message

/-- Whether some record's words contain a given text. -/
def mentions (r : Ring) (needle : String) : Bool :=
  r.messages.any fun m => Text.occursIn needle.toList m.toList

end Ring

end Reckon
