/-
The console: everything a computation leaves behind.

It holds the log with its rings, and what was printed on the two output streams.  Texts
are printed on the standard output; the logger decides where notes go.  What is printed
is kept in pieces, so that records can still be told from texts.
-/
import Reckon.Event
import Reckon.Log.Logger
import Reckon.Log.Ring

namespace Reckon

/-- A piece of printed output. -/
inductive Piece where
  | text (s : String)
  /-- A record on a line of its own. -/
  | line (r : Record)
  /-- A record as a row in the format that the user chose. -/
  | row (r : Record)

/-- The log and the output streams. -/
structure Console where
  logger : Logger
  rings : Array Ring := #[]
  out : Array Piece := #[]
  err : Array Piece := #[]

namespace Console

/-- The console whose log nobody listens to. -/
def silent : Console := { logger := .silent }

/-- Changes the logger only. -/
def withLogger (c : Console) (f : Logger → Logger) : Console :=
  { c with logger := f c.logger }

/-- Adds a ring, which gets the next number. -/
def addRing (c : Console) (ring : Ring) : Console :=
  { c with rings := c.rings.push ring }

/-- Changes the ring with a given number. -/
def withRing (c : Console) (index : Nat) (f : Ring → Ring) : Console :=
  { c with rings := c.rings.modify index f }

/-- Prints a text. -/
def print (c : Console) (s : String) : Console :=
  { c with out := c.out.push (.text s) }

/-- Prints a row on the error output. -/
def printError (c : Console) (s : String) : Console :=
  { c with err := c.err.push (.text (s ++ "\n")) }

/-- Hands a record to one sink. -/
def deliver (r : Record) (c : Console) (sink : Sink) : Console :=
  match sink with
  | .ring index => c.withRing index (·.write r)
  | .stdout => { c with out := c.out.push (.line r) }
  | .stderr => { c with err := c.err.push (.line r) }
  | .rows => { c with err := c.err.push (.row r) }

/-- Hands a record to every sink in turn. -/
def deliverAll (c : Console) (r : Record) : Console :=
  c.logger.sinks.foldl (deliver r) c

/-- Writes some words to the log, unless their level is below the threshold. -/
def log (c : Console) (level : Level) (target message : String) : Console :=
  if c.logger.enabled level then c.deliverAll (c.logger.record level target message) else c

/-- Asks whether a level is written, and only then makes the words and logs them. -/
def announce (c : Console) (level : Level) (target : String) (words : Unit → String) : Console :=
  if c.logger.enabled level then c.log level target (words ()) else c

/-- Writes a note to the log; its words are made only if they are written. -/
def note (c : Console) (n : Note) : Console :=
  c.announce n.level n.target fun _ => n.message

/-- That the level is looked at twice changes nothing. -/
theorem announce_eq_log (c : Console) (level : Level) (target : String)
    (words : Unit → String) : c.announce level target words = c.log level target (words ()) := by
  unfold announce log
  split <;> rfl

theorem note_eq_log (c : Console) (n : Note) :
    c.note n = c.log n.level n.target n.message :=
  c.announce_eq_log n.level n.target fun _ => n.message

/-- Prints the text or logs the note of an event. -/
def observe (c : Console) (e : Event) : Console :=
  match e with
  | .text s => c.print s
  | .note n => c.note n

/-- Prints and logs events in order. -/
def observeAll (c : Console) (events : List Event) : Console :=
  events.foldl observe c

end Console

end Reckon
