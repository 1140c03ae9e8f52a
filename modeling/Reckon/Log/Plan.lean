/-
Plans for a log: its level and its outputs.

A console output is planned at most once, rings as often as asked for.  Opening a plan
gives a console with the outputs attached in order, together with the ring that was
attached last.  A ring without room is refused with an error; one that no memory could hold
is not even refused, but stops the program.
-/
import Reckon.Console
import Reckon.Text.Numeral

namespace Reckon

/-- A place for records. -/
inductive LogOutput where
  | stdout
  | stderr
  | ring (capacity : Nat)
deriving DecidableEq, Repr

/-- Why a log cannot be had as planned. -/
inductive LogError where
  | unsupported (what : String)
  | zeroCapacity
deriving DecidableEq, Repr

/-- The words of an error in a plan. -/
def LogError.message : LogError → String
  | unsupported what => "Output not supported in this build: " ++ what
  | zeroCapacity => "Ring buffer capacity must be greater than zero"

/-- Why a plan does not open. -/
inductive LogFault where
  /-- The plan is refused, and whoever asked for the log is told why. -/
  | refused (e : LogError)
  /-- A ring cannot be made; nobody is told, since the program stops. -/
  | tooLarge
deriving DecidableEq, Repr

namespace LogOutput

/-- Whether an output is one of the console's streams. -/
def isConsole : LogOutput → Bool
  | ring _ => false
  | _ => true

/-- The output with a given name; a ring is named with its capacity. -/
def ofName (name : String) : Except LogError LogOutput :=
  match name.toList with
  | 'r' :: 'i' :: 'n' :: 'g' :: ':' :: capacity =>
    match Text.word? (String.ofList capacity) with
    | none => .error (.unsupported "ring capacity")
    | some 0 => .error .zeroCapacity
    | some n => .ok (ring n)
  | _ =>
    if name = "stdout" then .ok stdout
    else if name = "stderr" then .ok stderr
    else .error (.unsupported "unknown output")

end LogOutput

/-- The level of a log and its outputs, in order. -/
structure LogPlan where
  level : Level := .warn
  outputs : List LogOutput := []
deriving DecidableEq, Repr

/-- A log with its outputs attached. -/
structure OpenLog where
  console : Console
  /-- The number of the ring that was attached last. -/
  ring : Option Nat := none

namespace LogPlan

/-- Adds an output; a stream of the console is not added twice. -/
def add (p : LogPlan) (output : LogOutput) : LogPlan :=
  if output.isConsole && p.outputs.contains output then p
  else { p with outputs := p.outputs ++ [output] }

/-- The plan for development: details on the error output and in a large ring. -/
def development : LogPlan :=
  (({ level := .debug } : LogPlan).add .stderr).add (.ring 10000)

/-- The plan for tests: errors only, and nowhere to go. -/
def test : LogPlan := { level := .error }

/-- Attaches one planned output to a log. -/
def attach (log : OpenLog) : LogOutput → Except LogFault OpenLog
  | .stdout => .ok { log with console := log.console.withLogger (·.attach .stdout) }
  | .stderr => .ok { log with console := log.console.withLogger (·.attach .stderr) }
  | .ring 0 => .error (.refused .zeroCapacity)
  | .ring capacity =>
    match Ring.new? capacity with
    | none => .error .tooLarge
    | some ring =>
      let number := log.console.rings.size
      .ok {
        console := (log.console.addRing ring).withLogger (·.attach (.ring number))
        ring := some number }

/-- The log of a plan. -/
def opened (p : LogPlan) : Except LogFault OpenLog :=
  p.outputs.foldlM attach { console := { logger := { threshold := p.level } } }

/-- The console of a plan. -/
def console (p : LogPlan) : Except LogFault Console :=
  p.opened.map OpenLog.console

end LogPlan

end Reckon
