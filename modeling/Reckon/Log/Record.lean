/-
Log records.

A record is what a note becomes when somebody listens: level, target and words, the span
in which it was written and the time, in milliseconds since the beginning of 1970.

How a record reads on one line is up to the log (`line`).  Rows for the error output of a
program are not written by the log itself: it hands its records to a subscriber, and
`compactRow` and `jsonRow` stand for what that one prints, less the time.
-/
import Reckon.Log.Level
import Reckon.Text.Column
import Reckon.Text.Quoted

namespace Reckon

/-- One entry of the log. -/
structure Record where
  time : Nat
  level : Level
  target : String
  message : String
  span : Option Nat
deriving DecidableEq, Repr

namespace Record

/-- The size of a record in memory, in bytes: eight for the time, sixteen for the target,
twenty-four for the words, sixteen for the span and eight for the level. -/
def size : Nat := 72

/-- The time of day, in hours, minutes, seconds and milliseconds. -/
def clock (time : Nat) : String :=
  let seconds := time / 1000
  Text.zeroFilled 2 (seconds / 3600 % 24) ++ ":" ++ Text.zeroFilled 2 (seconds / 60 % 60) ++ ":"
    ++ Text.zeroFilled 2 (seconds % 60) ++ "." ++ Text.zeroFilled 3 (time % 1000)

/-- A record on one line, without its time. -/
def body (r : Record) : String :=
  Text.flushLeft 5 r.level.label ++ " " ++ r.target
    ++ (match r.span with
      | some id => " #" ++ toString id
      | none => "") ++ ": " ++ r.message

/-- A record on one line. -/
def line (r : Record) : String :=
  clock r.time ++ " " ++ r.body

/-- The span of a record as rows show it. -/
def spanText (r : Record) : String :=
  match r.span with
  | some id => "Some(SpanId(" ++ toString id ++ "))"
  | none => "None"

/-- A character as it is shown on a terminal: characters that steer the terminal are
written by their number. -/
def terminalSafe (c : Char) : List Char :=
  if c ∈ ['\x07', '\x08', '\x0c', '\x1b', '\x7f'] then
    ['\\', 'x', Text.hexDigit (c.toNat / 16), Text.hexDigit (c.toNat % 16)]
  else if 0x80 ≤ c.toNat ∧ c.toNat < 0xA0 then
    ['\\', 'u', '\x7b', Text.hexDigit (c.toNat / 16), Text.hexDigit (c.toNat % 16), '\x7d']
  else [c]

/-- A record as the row that a subscriber prints on a terminal. -/
def compactRow (r : Record) : String :=
  Text.flushRight 5 r.level.label ++ " " ++ String.ofList (r.message.toList.flatMap terminalSafe)
    ++ " module=" ++ Text.quoted r.target ++ " span=" ++ r.spanText

/-- A record as the row that a subscriber prints in JSON, without its time. -/
def jsonRow (r : Record) : String :=
  "\x7b\"level\":" ++ Text.quoted r.level.label
    ++ ",\"fields\":\x7b\"message\":" ++ Text.quoted r.message
    ++ ",\"module\":" ++ Text.quoted r.target
    ++ ",\"span\":" ++ Text.quoted r.spanText ++ "\x7d,\"target\":\"alphae\"\x7d"

end Record

end Reckon
