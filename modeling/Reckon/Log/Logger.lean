/-
The logger: which records are written, and in which span.

Records below a threshold are not written.  Spans mark stretches of work: they are entered
one inside the other but may be left in any order, and a record belongs to the span
entered last among those still open.  Spans are numbered from one on and no number is used
twice.
-/
import Reckon.Log.Record

namespace Reckon

/-- A stretch of work. -/
structure Span where
  id : Nat
  name : String
deriving DecidableEq, Repr

/-- Where records go. -/
inductive Sink where
  /-- The ring with a given number. -/
  | ring (index : Nat)
  /-- The standard output, one line for each record. -/
  | stdout
  /-- The error output, one line for each record. -/
  | stderr
  /-- The error output, one row for each record. -/
  | rows
deriving DecidableEq, Repr

/-- The state of the log apart from what was written. -/
structure Logger where
  threshold : Level
  sinks : List Sink := []
  /-- The open spans, in the order in which they were entered. -/
  spans : List Span := []
  nextSpan : Nat := 1
  /-- The time that is put on records. -/
  time : Nat := 0
deriving DecidableEq, Repr

namespace Logger

/-- The logger that nobody listens to. -/
def silent : Logger := { threshold := .error }

/-- Whether records of a level are written. -/
def enabled (l : Logger) (level : Level) : Bool :=
  l.threshold.rank ≤ level.rank

/-- Adds a place where records go, after those there are. -/
def attach (l : Logger) (sink : Sink) : Logger :=
  { l with sinks := l.sinks ++ [sink] }

/-- The span entered last among the open ones. -/
def current? (l : Logger) : Option Span := l.spans.getLast?

/-- The number of open spans. -/
def depth (l : Logger) : Nat := l.spans.length

/-- Enters a span, whose number is the next one. -/
def enter (l : Logger) (name : String) : Logger :=
  { l with spans := l.spans ++ [⟨l.nextSpan, name⟩], nextSpan := l.nextSpan + 1 }

/-- Leaves the span with a given number, if it is open.  It is looked for from the span
entered last on. -/
def leave (l : Logger) (id : Nat) : Logger :=
  { l with spans := (l.spans.reverse.eraseP (·.id = id)).reverse }

/-- Whether the span with a given number is open. -/
def isOpen (l : Logger) (id : Nat) : Bool :=
  l.spans.any (·.id = id)

/-- The record of some words at this point. -/
def record (l : Logger) (level : Level) (target message : String) : Record :=
  ⟨l.time, level, target, message, l.current?.map Span.id⟩

end Logger

end Reckon
