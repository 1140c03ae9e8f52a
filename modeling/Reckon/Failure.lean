/-
Failures and their reports.

A failure is a source that does not compile, a run that met a fault, unusable settings, or
the use of shared settings before any were stored.  Its report names the phase, the line
if there is one, the kind of error and a message without place; reports can be written as
one line of JSON.
-/
import Reckon.Fault
import Reckon.Settings.Basic
import Reckon.Text.Quoted

namespace Reckon

/-- A phase of the program's work. -/
inductive Phase where
  | scanner
  | compiler
  | vm
  | config
deriving DecidableEq, Repr

namespace Phase

/-- The phase's name in reports. -/
def name : Phase → String
  | scanner => "scanner"
  | compiler => "compiler"
  | vm => "vm"
  | config => "config"

/-- The phase's name as a variant of its type. -/
def variant : Phase → String
  | scanner => "Scanner"
  | compiler => "Compiler"
  | vm => "Vm"
  | config => "Config"

end Phase

/-- Why running a source gives no value. -/
inductive RunError where
  | compile (e : CompileError)
  | runtime (e : RuntimeError)
deriving DecidableEq, Repr

/-- Why the program gives no value. -/
inductive Failure where
  | compile (e : CompileError)
  | runtime (e : RuntimeError)
  | settings (e : SettingsError)
  | uninitialized
deriving DecidableEq, Repr

/-- A failed run as a failure of the program. -/
def RunError.toFailure : RunError → Failure
  | compile e => .compile e
  | runtime e => .runtime e

/-- A failure in the form for tools. -/
structure Report where
  phase : Phase
  line : Option Nat
  kind : String
  message : String
deriving DecidableEq, Repr

namespace Report

/-- The report on one line. -/
def text (r : Report) : String :=
  (match r.line with
    | some line => "[line " ++ toString line ++ "] "
    | none => "") ++ r.phase.name ++ " error: " ++ r.message

/-- The report as a JSON object on one line. -/
def json (r : Report) : String :=
  "\x7b\"phase\":" ++ Text.quoted r.phase.name
    ++ ",\"line\":" ++ (match r.line with
      | some line => toString line
      | none => "null")
    ++ ",\"error_kind\":" ++ Text.quoted r.kind
    ++ ",\"message\":" ++ Text.quoted r.message ++ "\x7d"

end Report

namespace Failure

/-- The failure in words. -/
def message : Failure → String
  | compile e => e.text
  | runtime e => e.text
  | settings e => e.message
  | uninitialized => "global config not initialized"

/-- The source line of the failure. -/
def line? : Failure → Option Nat
  | compile e => e.line?
  | runtime e => some e.line
  | settings _ => none
  | uninitialized => none

/-- The phase in which the failure arose. -/
def phase : Failure → Phase
  | compile _ => .compiler
  | runtime _ => .vm
  | settings _ => .config
  | uninitialized => .config

/-- The exit code of a program that fails so. -/
def exitCode : Failure → Nat
  | compile _ => 65
  | runtime _ => 70
  | settings _ => 78
  | uninitialized => 78

/-- The kind of the failure as reports name it. -/
def kind : Failure → String
  | compile e =>
    if e.diagnostics.head?.map Diagnostic.location = some .scan then "ScanError" else "SyntaxError"
  | runtime e => e.fault.name
  | settings _ => "ConfigError"
  | uninitialized => "ConfigError"

/-- The message of the failure without its place. -/
def reason : Failure → String
  | compile e => (e.diagnostics.head?.map Diagnostic.message).getD ""
  | runtime e => e.fault.message
  | failure => failure.message

/-- The report of a failure. -/
def report (f : Failure) : Report :=
  ⟨f.phase, f.line?, f.kind, f.reason⟩

end Failure

end Reckon
