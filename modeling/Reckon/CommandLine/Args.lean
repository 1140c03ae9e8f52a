/-
Arguments of the command line.

Arguments are read from left to right.  An option with a value takes it from behind an
equals sign or from the next argument, which must not look like an option.  No option is
given twice.  What is no option is the file to run, and so is everything after a double
dash; there is exactly one.  A request for help or for the version ends the reading where
it stands.
-/
import Reckon.Text.Numeral

namespace Reckon

/-- How log rows are written. -/
inductive LogFormat where
  | pretty
  | compact
  | json
deriving DecidableEq, Repr

namespace LogFormat

/-- All formats. -/
def all : List LogFormat := [pretty, compact, json]

/-- The format's name on the command line. -/
def name : LogFormat → String
  | pretty => "pretty"
  | compact => "compact"
  | json => "json"

/-- The format's name as a variant of its type. -/
def variant : LogFormat → String
  | pretty => "Pretty"
  | compact => "Compact"
  | json => "Json"

/-- The format with a given name. -/
def ofName? (s : String) : Option LogFormat :=
  all.find? (fun f => f.name = s)

end LogFormat

/-- How failures are reported. -/
inductive ErrorFormat where
  | text
  | json
deriving DecidableEq, Repr

namespace ErrorFormat

/-- All formats. -/
def all : List ErrorFormat := [text, json]

/-- The format's name on the command line. -/
def name : ErrorFormat → String
  | text => "text"
  | json => "json"

/-- The format's name as a variant of its type. -/
def variant : ErrorFormat → String
  | text => "Text"
  | json => "Json"

/-- The format with a given name. -/
def ofName? (s : String) : Option ErrorFormat :=
  all.find? (fun f => f.name = s)

end ErrorFormat

/-- Why there is nothing to run. -/
inductive Usage where
  | wrong
  | help
  | version
deriving DecidableEq, Repr

/-- A command line. -/
structure Args where
  file : String
  trace : Bool
  noDump : Bool
  tokens : Bool
  config : Option String
  logLevel : Option String
  logRing : Nat
  logFormat : LogFormat
  errorFormat : ErrorFormat
deriving DecidableEq, Repr

namespace Args

/-- What has been read of a command line. -/
structure Draft where
  file : Option String := none
  trace : Bool := false
  noDump : Bool := false
  tokens : Bool := false
  config : Option String := none
  logLevel : Option String := none
  logRing : Option Nat := none
  logFormat : Option LogFormat := none
  errorFormat : Option ErrorFormat := none

/-- A value for a place that must still be free. -/
def once {α : Type} (old new : Option α) : Except Usage (Option α) :=
  match old, new with
  | none, some value => .ok (some value)
  | _, _ => .error .wrong

/-- A switch that must still be off. -/
def switch (old : Bool) : Except Usage Bool :=
  if old then .error .wrong else .ok true

/-- A path, which is not empty. -/
def path? (s : String) : Option String :=
  if s.isEmpty then none else some s

namespace Draft

/-- Takes the file to run. -/
def setFile (d : Draft) (s : String) : Except Usage Draft := do
  return { d with file := ← once d.file (path? s) }

/-- Takes an option without value, if there is one of this name. -/
def setFlag? (d : Draft) (name : String) : Option (Except Usage Draft) :=
  match name with
  | "trace" => some do return { d with trace := ← switch d.trace }
  | "no-dump" => some do return { d with noDump := ← switch d.noDump }
  | "tokens" => some do return { d with tokens := ← switch d.tokens }
  | "help" => some (.error .help)
  | "version" => some (.error .version)
  | _ => none

/-- Takes an option with a value, if there is one of this name. -/
def setOption (d : Draft) (name value : String) : Except Usage Draft := do
  match name with
  | "config" => return { d with config := ← once d.config (path? value) }
  | "log-level" => return { d with logLevel := ← once d.logLevel (some value) }
  | "log-ring" => return { d with logRing := ← once d.logRing (Text.word? value) }
  | "log-format" => return { d with logFormat := ← once d.logFormat (LogFormat.ofName? value) }
  | "error-format" =>
    return { d with errorFormat := ← once d.errorFormat (ErrorFormat.ofName? value) }
  | _ => .error .wrong

/-- The command line, once all arguments are read. -/
def finish (d : Draft) : Except Usage Args :=
  match d.file with
  | none => .error .wrong
  | some file =>
    .ok {
      file, trace := d.trace, noDump := d.noDump, tokens := d.tokens
      config := d.config, logLevel := d.logLevel
      logRing := d.logRing.getD 0
      logFormat := d.logFormat.getD .compact
      errorFormat := d.errorFormat.getD .text }

end Draft

/-- An argument by its dashes. -/
inductive Shape where
  /-- Two dashes alone: only files follow. -/
  | separator
  /-- A long option, perhaps with a value behind an equals sign. -/
  | long (name : String) (value : Option String)
  /-- A short option. -/
  | short (first : Char)
  /-- Anything else. -/
  | plain
deriving DecidableEq, Repr

/-- The shape of an argument; a dash alone is plain. -/
def shape (arg : String) : Shape :=
  match arg.toList with
  | ['-', '-'] => .separator
  | '-' :: '-' :: rest =>
    let name := String.ofList (rest.takeWhile (· ≠ '='))
    match rest.dropWhile (· ≠ '=') with
    | [] => .long name none
    | _ :: value => .long name (some (String.ofList value))
  | '-' :: c :: _ => .short c
  | _ => .plain

/-- Reads arguments from left to right. -/
def readFrom (d : Draft) : List String → Except Usage Draft
  | [] => .ok d
  | arg :: rest =>
    match shape arg with
    | .separator => rest.foldlM Draft.setFile d
    | .plain => do readFrom (← d.setFile arg) rest
    | .short c => .error (if c = 'h' then .help else if c = 'V' then .version else .wrong)
    | .long name (some value) =>
      match d.setFlag? name with
      | some _ => .error .wrong
      | none => do readFrom (← d.setOption name value) rest
    | .long name none =>
      match d.setFlag? name with
      | some flagged => do readFrom (← flagged) rest
      | none =>
        match rest with
        | value :: rest =>
          if shape value = .plain then do readFrom (← d.setOption name value) rest
          else .error .wrong
        | [] => .error .wrong

/-- Reads a command line without the name of the program. -/
def read (args : List String) : Except Usage Args := do
  (← readFrom {} args).finish

end Args

end Reckon
