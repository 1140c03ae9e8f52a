/-
Settings: the options of a run and the level of its log.
-/
import Reckon.Log.Level
import Reckon.Options
import Reckon.Text.Outline

namespace Reckon

/-- The options of a run and the level of its log. -/
structure Settings extends Options where
  level : Level := .warn
deriving DecidableEq, Repr

/-- The largest stack that settings may ask for. -/
def largestStack : Nat := 1048576

/-- What is wrong with settings. -/
inductive SettingsError where
  | malformed (reason : String)
  | zeroStack
  | stackTooLarge (most : Nat)
  | unknownLevel (name : String)
  | unreadable (reason : String)
deriving DecidableEq, Repr

/-- The words of an error in settings. -/
def SettingsError.message : SettingsError → String
  | malformed reason => "invalid config: " ++ reason
  | zeroStack => "invalid config: stack_max must be greater than zero"
  | stackTooLarge most => "invalid config: stack_max must not exceed " ++ toString most
  | unknownLevel name => "invalid config: unknown log level '" ++ name ++ "'"
  | unreadable reason => "cannot read config: " ++ reason

/-- Settings whose stack is neither empty nor too large. -/
def Settings.validate (s : Settings) : Except SettingsError Settings :=
  if s.stackMax = 0 then .error .zeroStack
  else if largestStack < s.stackMax then .error (.stackTooLarge largestStack)
  else .ok s

/-- The options of a run as a record, with the level of its log. -/
def Options.outline (o : Options) (level : Level) : Text.Outline :=
  .record "RunConfig"
    [("scanner", .record "ScannerConfig" [("dump_tokens", .leaf (toString o.listTokens))]),
     ("compiler", .record "CompilerConfig"
       [("dump_chunk", .leaf (toString o.listCode)),
        ("max_nesting", .leaf (toString o.maxNesting))]),
     ("vm", .record "VmConfig"
       [("trace_execution", .leaf (toString o.traceRun)),
        ("stack_max", .leaf (toString o.stackMax))]),
     ("log_level", .leaf level.variant)]

end Reckon
