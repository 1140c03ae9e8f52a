/-
Levels of log records, from chatter to failure.
-/

namespace Reckon

/-- How important a record is. -/
inductive Level where
  | trace
  | debug
  | info
  | warn
  | error
deriving DecidableEq, Repr

namespace Level

/-- All levels, the least important first. -/
def all : List Level := [trace, debug, info, warn, error]

/-- The place of a level among all levels. -/
def rank : Level → Nat
  | trace => 0
  | debug => 1
  | info => 2
  | warn => 3
  | error => 4

/-- The level's label in records. -/
def label : Level → String
  | trace => "TRACE"
  | debug => "DEBUG"
  | info => "INFO"
  | warn => "WARN"
  | error => "ERROR"

/-- The level's name as a variant of its type. -/
def variant : Level → String
  | trace => "Trace"
  | debug => "Debug"
  | info => "Info"
  | warn => "Warn"
  | error => "Error"

/-- The level's name in a configuration. -/
def name : Level → String
  | trace => "trace"
  | debug => "debug"
  | info => "info"
  | warn => "warn"
  | error => "error"

/-- The level with a given name. -/
def ofName? (s : String) : Option Level :=
  all.find? (fun l => l.name = s)

/-- The level that a user asks for, in letters of either case; `silent` leaves errors only. -/
def ofUserName? (s : String) : Option Level :=
  let lower := String.ofList (s.toList.map Char.toLower)
  if lower = "silent" then some error else ofName? lower

/-- The order of importance. -/
instance : Ord Level := ⟨fun a b => compare a.rank b.rank⟩

end Level

end Reckon
